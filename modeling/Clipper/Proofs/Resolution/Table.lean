import Clipper.Analysis
import Mathlib.Data.List.Induction

/-!
What an analysis enters into its table of symbols and what it finds wrong.
-/

namespace Clipper

namespace Analysis

variable {ds : List Declaration} {f : Fault} {x : Externals} {p : Program}

theorem lookup_declare (a : Analysis) (d : Declaration) (k : String) :
    (a.declare d).symbols.lookup k =
      (a.symbols.lookup k).or (if !d.name.isMissing && d.key == k then some d.symbol else none) := by
  unfold declare
  split
  · rename_i hmissing
    simp [hmissing]
  rename_i hmissing
  cases hlookup : a.symbols.lookup d.key with
  | some first =>
      have hdefine : a.symbols.define d.key d.symbol = (a.symbols, some first) := by
        rw [SymbolTable.define, hlookup]
      rw [hdefine]
      by_cases hk : d.key = k
      · simp [← hk, hlookup]
      · simp [hk]
  | none =>
      have hdefine : a.symbols.define d.key d.symbol =
          (⟨a.symbols.entries ++ [(d.key, d.symbol)]⟩, none) := by
        rw [SymbolTable.define, hlookup]
      rw [hdefine]
      show List.lookup k (a.symbols.entries ++ [(d.key, d.symbol)]) = _
      rw [List.lookup_append]
      by_cases hk : d.key = k
      · simp [SymbolTable.lookup, hk, hmissing]
      · have hne : (k == d.key) = false := by simpa using Ne.symm hk
        simp [SymbolTable.lookup, List.lookup_cons, hk, hne]

theorem contains_declare (a : Analysis) (d : Declaration) (k : String) :
    (a.declare d).symbols.contains k =
      (a.symbols.contains k || !d.name.isMissing && d.key == k) := by
  rw [SymbolTable.contains, lookup_declare, SymbolTable.contains, Option.isSome_or]
  split <;> simp_all

/-- A key is in the table if a declaration that has a name was made under it. -/
theorem contains_collect (ds : List Declaration) (k : String) :
    (collect ds).symbols.contains k = true ↔
      ∃ d ∈ ds, d.name.isMissing = false ∧ d.key = k := by
  have hfold : ∀ (ds : List Declaration) (a : Analysis),
      (ds.foldl declare a).symbols.contains k = true ↔
        a.symbols.contains k = true ∨ ∃ d ∈ ds, d.name.isMissing = false ∧ d.key = k := by
    intro ds
    induction ds with
    | nil => simp
    | cons d ds ih =>
        intro a
        rw [List.foldl_cons, ih, contains_declare]
        simp [or_assoc]
  rw [collect, hfold]
  simp [SymbolTable.empty, SymbolTable.contains, SymbolTable.lookup]

theorem faults_declare (a : Analysis) (d : Declaration) :
    (a.declare d).faults = a.faults ++ (if d.name.isMissing then [] else
      ((a.symbols.lookup d.key).map fun first =>
        Fault.redeclared d.name.text d.name.token first.token).toList) := by
  unfold declare
  split
  · simp
  · cases hlookup : a.symbols.lookup d.key <;> simp [SymbolTable.define, hlookup]

theorem collect_concat (ds : List Declaration) (d : Declaration) :
    collect (ds ++ [d]) = (collect ds).declare d := by
  rw [collect, List.foldl_append]
  rfl

/-- What the table holds under a key was declared under it. -/
theorem exists_of_lookup_collect {k : String} {s : Symbol}
    (h : (collect ds).symbols.lookup k = some s) :
    ∃ d ∈ ds, d.name.isMissing = false ∧ d.key = k ∧ s = d.symbol := by
  induction ds using List.reverseRecOn with
  | nil => cases h
  | append_singleton ds d ih =>
      rw [collect_concat, lookup_declare, Option.or_eq_some_iff] at h
      rcases h with h | ⟨-, h⟩
      · obtain ⟨d', hd', h⟩ := ih h
        exact ⟨d', List.mem_append_left _ hd', h⟩
      · simp only [Option.ite_none_right_eq_some, Bool.and_eq_true, Bool.not_eq_true',
          beq_iff_eq] at h
        exact ⟨d, by simp, h.1.1, h.1.2, (Option.some.inj h.2).symm⟩

/-- A redeclared name has been declared before, under the same key. -/
theorem earlier_of_mem_collect (hf : f ∈ (collect ds).faults) :
    ∃ d₀ d, [d₀, d].Sublist ds ∧ d₀.name.isMissing = false ∧ d.name.isMissing = false ∧
      d₀.key = d.key ∧ f = .redeclared d.name.text d.name.token d₀.name.token := by
  induction ds using List.reverseRecOn with
  | nil => cases hf
  | append_singleton ds d ih =>
      rw [collect_concat, faults_declare, List.mem_append] at hf
      rcases hf with hf | hf
      · obtain ⟨d₀, d', hsub, h⟩ := ih hf
        exact ⟨d₀, d', hsub.trans (List.sublist_append_left _ _), h⟩
      · split at hf
        · cases hf
        rename_i hmissing
        rw [Option.mem_toList, Option.map_eq_some_iff] at hf
        obtain ⟨first, hlookup, rfl⟩ := hf
        obtain ⟨d₀, hd₀, hmissing₀, hkey, rfl⟩ := exists_of_lookup_collect hlookup
        refine ⟨d₀, d, ?_, hmissing₀, by simpa using hmissing, hkey, rfl⟩
        exact (List.singleton_sublist.mpr hd₀).append (List.Sublist.refl [d])

/-- Of two declarations under one key the later is reported. -/
theorem reported_of_sublist {d₀ d : Declaration} (h : [d₀, d].Sublist ds)
    (hd₀ : d₀.name.isMissing = false) (hd : d.name.isMissing = false) (hkey : d₀.key = d.key) :
    ∃ first, .redeclared d.name.text d.name.token first ∈ (collect ds).faults := by
  obtain ⟨pre, rest, rfl, hmem, hrest⟩ := List.cons_sublist_iff.mp h
  induction rest using List.reverseRecOn with
  | nil => cases hrest
  | append_singleton rest e ih =>
      rw [← List.append_assoc] at h ⊢
      rw [collect_concat, faults_declare]
      rcases List.mem_append.mp (List.singleton_sublist.mp hrest) with hrest | hrest
      · have hrest := List.singleton_sublist.mpr hrest
        obtain ⟨first, hfirst⟩ := ih ((List.singleton_sublist.mpr hmem).append hrest) hrest
        exact ⟨first, List.mem_append_left _ hfirst⟩
      · obtain rfl := List.mem_singleton.mp hrest
        have hcontains : (collect (pre ++ rest)).symbols.contains d.key = true :=
          (contains_collect _ _).mpr ⟨d₀, List.mem_append_left _ hmem, hd₀, hkey⟩
        obtain ⟨first, hfirst⟩ := Option.isSome_iff_exists.mp hcontains
        refine ⟨first.token, List.mem_append_right _ ?_⟩
        simp [hd, hfirst]

/-- A name is redeclared by a declaration that has a name. -/
theorem exists_of_mem_collect (hf : f ∈ (collect ds).faults) :
    ∃ d ∈ ds, ∃ first, f = .redeclared d.name.text d.name.token first ∧
      d.name.isMissing = false := by
  obtain ⟨d₀, d, hsub, -, hmissing, -, rfl⟩ := earlier_of_mem_collect hf
  exact ⟨d, hsub.subset (by simp), _, rfl, hmissing⟩

theorem exists_of_mem_faults (hf : f ∈ (ofProgram x p).faults) :
    (∃ d ∈ p.declarations, ∃ first, f = .redeclared d.name.text d.name.token first ∧
        d.name.isMissing = false) ∨
      ∃ r ∈ p.references, f = .undeclared r.name.text r.name.token ∧ r.name.isMissing = false := by
  rcases List.mem_append.mp hf with hf | hf
  · exact .inl (exists_of_mem_collect hf)
  · obtain ⟨r, hr, hf⟩ := List.mem_filterMap.mp hf
    refine .inr ⟨r, hr, ?_⟩
    unfold undeclared? at hf
    split at hf
    · cases hf
    · rename_i hknown
      simp only [isExempt, Bool.or_eq_true, not_or, Bool.not_eq_true] at hknown
      exact ⟨(Option.some.inj hf).symm, hknown.1.1⟩

end Analysis

end Clipper
