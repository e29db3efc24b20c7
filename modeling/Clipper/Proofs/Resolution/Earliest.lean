import Clipper.Proofs.Resolution.Table
import Mathlib.Data.List.Basic
import Mathlib.Data.List.Forall2

/-!
Under each key the table of symbols holds the declaration that is made first, and every
later one is reported against that first one.
-/

namespace Clipper

namespace Declaration

/-- The first of some declarations that is made under a key. -/
def first? (ds : List Declaration) (k : String) : Option Declaration := ds.find? (·.key == k)

/-- The declarations whose key is taken when their turn comes, in order, each behind the first
one under that key. -/
def again (ds : List Declaration) : List (Declaration × Declaration) :=
  ds.zipIdx.filterMap fun d => (first? (ds.take d.2) d.1.key).map (·, d.1)

variable {ds : List Declaration} {d : Declaration} {k : String}

end Declaration

/-- Where no key is entered twice an entry is what is looked up under its key. -/
theorem SymbolTable.mem_entries {t : SymbolTable} {k : String} {s : Symbol}
    (h : (t.entries.map Prod.fst).Nodup) : (k, s) ∈ t.entries ↔ t.lookup k = some s := by
  rw [lookup, List.lookup_eq_some_iff]
  constructor
  · intro hmem
    obtain ⟨before, behind, hsplit⟩ := List.append_of_mem hmem
    refine ⟨before, behind, hsplit, fun e he => ?_⟩
    rw [hsplit, List.map_append, List.nodup_append] at h
    have hne : e.1 ≠ k := h.2.2 _ (List.mem_map_of_mem he) _ (by simp)
    simpa using hne.symm
  · rintro ⟨before, behind, hsplit, -⟩
    rw [hsplit]
    exact List.mem_append_right _ List.mem_cons_self

/-- The declarations of a program that have a name, in the order in which they are made. -/
def Program.named (p : Program) : List Declaration :=
  p.declarations.filter fun d => !d.name.isMissing

namespace Analysis

open Declaration

variable {ds : List Declaration} {d : Declaration} {k : String} {s : Symbol}

theorem entries_declare (a : Analysis) (d : Declaration) :
    (a.declare d).symbols.entries = a.symbols.entries ++
      (if d.name.isMissing || a.symbols.contains d.key then [] else [(d.key, d.symbol)]) := by
  unfold declare
  split
  · rename_i hmissing
    simp [hmissing]
  · rename_i hmissing
    cases hlookup : a.symbols.lookup d.key <;>
      simp [SymbolTable.define, SymbolTable.contains, hlookup, hmissing]

/-- No key is entered twice. -/
theorem nodup_collect (ds : List Declaration) :
    ((collect ds).symbols.entries.map Prod.fst).Nodup := by
  induction ds using List.reverseRecOn with
  | nil => exact List.nodup_nil
  | append_singleton ds d ih =>
      rw [collect_concat, entries_declare]
      split
      · simpa using ih
      rename_i htaken
      rw [Bool.or_eq_true, not_or] at htaken
      rw [List.map_append, List.nodup_append]
      refine ⟨ih, by simp, ?_⟩
      rintro k hk _ hd rfl
      obtain rfl : k = d.key := by simpa using hd
      obtain ⟨e, he, hfst⟩ := List.mem_map.mp hk
      refine htaken.2 ?_
      rw [SymbolTable.contains, SymbolTable.lookup, List.lookup_isSome_iff]
      exact ⟨e, he, by simp [hfst]⟩

end Analysis

end Clipper
