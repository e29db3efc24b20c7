import Clipper.Proofs.Faults.Complete
import Clipper.Proofs.Resolution.Entries
import Clipper.Proofs.Resolution.Table
import Mathlib.Data.List.Pairwise

/-!
Keys of names. Where names have no points in them and routines have names of their own, a
key in the table of symbols tells the scope and the name that it was made of.
-/

namespace Clipper

/-! ### Keys -/

/-- A point in a name would let it look like a key. -/
def Pointless (n : String) : Prop := '.' ∉ n.toList

namespace Scope

theorem toList_key {s : Scope} (hs : s.isFile = false) (n : String) :
    (s.key n).toList = s.name.toList ++ '.' :: n.toList := by
  simp [key, hs]

theorem key_inj {s s' : Scope} {n n' : String} (hn : Pointless n) (hn' : Pointless n')
    (h : s.key n = s'.key n') : s.isFile = s'.isFile ∧ s.name = s'.name ∧ n = n' := by
  have hfile : ∀ {s : Scope}, s.isFile = true → s = file := fun h => by simpa [isFile] using h
  have hlist := congrArg String.toList h
  cases hs : s.isFile with
  | true =>
      cases hs' : s'.isFile with
      | true =>
          obtain rfl := hfile hs
          obtain rfl := hfile hs'
          exact ⟨rfl, rfl, h⟩
      | false =>
          rw [toList_key hs', hfile hs] at hlist
          have hpoint : '.' ∈ n.toList := by
            have : n.toList = _ := hlist
            simp [this]
          exact absurd hpoint hn
  | false =>
      cases hs' : s'.isFile with
      | true =>
          rw [toList_key hs, hfile hs'] at hlist
          have hpoint : '.' ∈ n'.toList := by
            have : _ = n'.toList := hlist
            simp [← this]
          exact absurd hpoint hn'
      | false =>
          rw [toList_key hs, toList_key hs'] at hlist
          obtain ⟨hname, hrest⟩ := append_cons_inj hn hn' hlist
          exact ⟨rfl, String.toList_inj.mp hname, String.toList_inj.mp hrest⟩

end Scope

/-! ### Scopes of routines -/

namespace Item

/-- A scope of an item, and the names that are declared in it. -/
inductive Owns : Item → Scope → List Name → Prop
  | function {isStatic : Bool} {r : Routine} :
      Owns (.function isStatic r) (.function r.name.text) r.locals
  | classBody {d : ClassDef} : Owns (.classDef d) (.classBody d.name.text) d.members
  | method {d : ClassDef} {m : Routine} : m ∈ d.methods →
      Owns (.classDef d) (.method d.name.text m.name.text) m.locals

theorem Owns.isFile {i : Item} {s : Scope} {ns : List Name} (h : i.Owns s ns) :
    s.isFile = false := by
  cases h <;> rfl

theorem mem_entries {i : Item} {e : ScopedName} :
    e ∈ i.entries ↔
      (e.1 = .file ∧ i.var?.or i.routine? = some e.2) ∨ ∃ ns, i.Owns e.1 ns ∧ e.2 ∈ ns := by
  obtain ⟨s, n⟩ := e
  constructor
  · intro h
    cases i with
    | use => cases h
    | var => simp_all [entries, var?]
    | function b r =>
        rcases List.mem_cons.mp h with h | h
        · simp_all [routine?, var?]
        · obtain ⟨v, hv, h⟩ := List.mem_map.mp h
          cases h
          exact .inr ⟨_, .function, hv⟩
    | classDef d =>
        rcases List.mem_append.mp h with h | h
        · rcases List.mem_cons.mp h with h | h
          · simp_all [routine?, var?]
          · obtain ⟨v, hv, h⟩ := List.mem_map.mp h
            cases h
            exact .inr ⟨_, .classBody, hv⟩
        · obtain ⟨m, hm, h⟩ := List.mem_flatMap.mp h
          obtain ⟨v, hv, h⟩ := List.mem_map.mp h
          cases h
          exact .inr ⟨_, .method hm, hv⟩
  · rintro (⟨hs, h⟩ | ⟨ns, hs, h⟩)
    · cases i <;> simp_all [routine?, var?, entries]
    · have hs : i.Owns s ns := hs
      cases hs with
      | function => exact List.mem_cons_of_mem _ (List.mem_map_of_mem h)
      | classBody => exact List.mem_append_left _ (List.mem_cons_of_mem _ (List.mem_map_of_mem h))
      | method hm =>
          exact List.mem_append_right _ (List.mem_flatMap.mpr ⟨_, hm, List.mem_map_of_mem h⟩)

end Item

namespace Program

variable {p : Program}

/-- The names that are declared in a file have no points in them. -/
def Plain (p : Program) : Prop :=
  ∀ e ∈ p.items.flatMap Item.entries, e.2.isMissing = false → Pointless e.2.text

/-- Functions and classes of one name are one and the same. -/
theorem item_inj (h : p.Distinct) {i i' : Item} (hi : i ∈ p.items) (hi' : i' ∈ p.items)
    {n n' : Name} (hn : i.routine? = some n) (hn' : i'.routine? = some n')
    (heq : n.text = n'.text) : i = i' := by
  have hnodup := h.1.2
  rw [routineNames, List.map_filterMap, List.Nodup, List.pairwise_filterMap] at hnodup
  have : Std.Symm fun i i' : Item => ∀ b, i.routine?.map Name.text = some b →
      ∀ b', i'.routine?.map Name.text = some b' → b ≠ b' :=
    ⟨fun _ _ h b hb b' hb' => (h b' hb' b hb).symm⟩
  by_contra hne
  exact hnodup.forall hi hi' hne n.text (by simp [hn]) n'.text (by simp [hn']) heq

theorem pointless_of_routine (hd : p.Distinct) (hp : p.Plain) {i : Item} (hi : i ∈ p.items)
    {n : Name} (hn : i.routine? = some n) : Pointless n.text := by
  refine hp (.file, n) (List.mem_flatMap.mpr ⟨i, hi, Item.mem_entries.mpr (.inl ⟨rfl, ?_⟩)⟩)
    (hd.1.1 n (List.mem_filterMap.mpr ⟨i, hi, hn⟩))
  cases i <;> simp_all [Item.routine?, Item.var?]

theorem pointless_of_method (hd : p.Distinct) (hp : p.Plain) {d : ClassDef}
    (hi : .classDef d ∈ p.items) {m : Routine} (hm : m ∈ d.methods) : Pointless m.name.text := by
  refine hp (.classBody d.name.text, m.name)
    (List.mem_flatMap.mpr ⟨_, hi, Item.mem_entries.mpr (.inr ⟨_, .classBody, ?_⟩)⟩)
    ((hd.2 d (List.mem_filterMap.mpr ⟨_, hi, rfl⟩)).1 m hm)
  exact List.mem_append_right _ (List.mem_map_of_mem hm)

/-- A scope is known by its name. -/
theorem owns_inj (hd : p.Distinct) (hp : p.Plain) {i i' : Item} (hi : i ∈ p.items)
    (hi' : i' ∈ p.items) {s s' : Scope} {ns ns' : List Name} (h : i.Owns s ns)
    (h' : i'.Owns s' ns') (hname : s.name = s'.name) : ns = ns' := by
  have hpoint : ∀ {f c m : String}, Pointless f → f ≠ c ++ "." ++ m := by
    rintro f c m hf rfl
    exact hf (by simp)
  cases h with
  | function =>
      cases h' with
      | function =>
          cases item_inj hd hi hi' rfl rfl hname
          rfl
      | classBody => cases item_inj hd hi hi' rfl rfl hname
      | method hm => exact absurd hname (hpoint (pointless_of_routine hd hp hi rfl))
  | classBody =>
      cases h' with
      | function => cases item_inj hd hi hi' rfl rfl hname
      | classBody =>
          cases item_inj hd hi hi' rfl rfl hname
          rfl
      | method hm => exact absurd hname (hpoint (pointless_of_routine hd hp hi rfl))
  | @method d m hm =>
      cases h' with
      | function => exact absurd hname.symm (hpoint (pointless_of_routine hd hp hi' rfl))
      | classBody => exact absurd hname.symm (hpoint (pointless_of_routine hd hp hi' rfl))
      | @method d' m' hm' =>
          have hlist : d.name.text.toList ++ '.' :: m.name.text.toList =
              d'.name.text.toList ++ '.' :: m'.name.text.toList := by
            simpa [Scope.name] using congrArg String.toList hname
          obtain ⟨hclass, hmethod⟩ := append_cons_inj (pointless_of_method hd hp hi hm)
            (pointless_of_method hd hp hi' hm') hlist
          cases item_inj hd hi hi' rfl rfl (String.toList_inj.mp hclass)
          have hmethods := (hd.2 d (List.mem_filterMap.mpr ⟨_, hi, rfl⟩)).2
          rw [List.inj_on_of_nodup_map hmethods hm hm' (String.toList_inj.mp hmethod)]

theorem contains_collect_entries (ds : List Declaration) (k : String) :
    (Analysis.collect ds).symbols.contains k = true ↔
      ∃ e ∈ ds.map Declaration.entry, e.2.isMissing = false ∧ e.1.key e.2.text = k := by
  rw [Analysis.contains_collect]
  simp [Declaration.entry, Declaration.key]

/-- What the table knows of a name in a scope is what is declared there. -/
theorem contains_key (hd : p.Distinct) (hp : p.Plain)
    (hentries : p.declarations.map Declaration.entry = p.items.flatMap Item.entries) {i : Item}
    (hi : i ∈ p.items) {s : Scope} {ns : List Name} (h : i.Owns s ns) {n : String}
    (hn : Pointless n) (hne : n.isEmpty = false) :
    (Analysis.collect p.declarations).symbols.contains (s.key n) = ns.any (·.text == n) := by
  have hs := h.isFile
  rw [Bool.eq_iff_iff, contains_collect_entries, hentries, List.any_eq_true]
  constructor
  · rintro ⟨e, he, hmissing, hkey⟩
    obtain ⟨i', hi', he'⟩ := List.mem_flatMap.mp he
    obtain ⟨hfile, hname, htext⟩ := Scope.key_inj (hp e he hmissing) hn hkey
    rcases Item.mem_entries.mp he' with ⟨hscope, -⟩ | ⟨ns', h', hmem⟩
    · rw [hscope, hs] at hfile
      cases hfile
    · obtain rfl := owns_inj hd hp hi' hi h' h hname
      exact ⟨e.2, hmem, by simpa using htext⟩
  · rintro ⟨v, hv, htext⟩
    have htext : v.text = n := by simpa using htext
    refine ⟨(s, v), List.mem_flatMap.mpr ⟨i, hi, Item.mem_entries.mpr (.inr ⟨ns, h, hv⟩)⟩, ?_, ?_⟩
    · rwa [Name.isMissing, htext]
    · rw [htext]

theorem contains_file (hp : p.Plain)
    (hentries : p.declarations.map Declaration.entry = p.items.flatMap Item.entries) {n : String}
    (hn : Pointless n) (hne : n.isEmpty = false) :
    (Analysis.collect p.declarations).symbols.contains n = p.globals.any (·.text == n) := by
  rw [Bool.eq_iff_iff, contains_collect_entries, hentries, List.any_eq_true]
  constructor
  · rintro ⟨e, he, hmissing, hkey⟩
    obtain ⟨i, hi, he'⟩ := List.mem_flatMap.mp he
    have hkey : e.1.key e.2.text = Scope.file.key n := hkey
    obtain ⟨hfile, -, htext⟩ := Scope.key_inj (hp e he hmissing) hn hkey
    rcases Item.mem_entries.mp he' with ⟨-, h⟩ | ⟨ns, h, -⟩
    · exact ⟨e.2, List.mem_filterMap.mpr ⟨i, hi, h⟩, by simpa using htext⟩
    · rw [h.isFile] at hfile
      cases hfile
  · rintro ⟨v, hv, htext⟩
    have htext : v.text = n := by simpa using htext
    obtain ⟨i, hi, h⟩ := List.mem_filterMap.mp hv
    refine ⟨(.file, v), List.mem_flatMap.mpr ⟨i, hi, Item.mem_entries.mpr (.inl ⟨rfl, h⟩)⟩, ?_,
      htext⟩
    rwa [Name.isMissing, htext]

end Program

end Clipper
