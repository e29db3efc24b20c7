import Clipper.Check
import Clipper.Proofs.Resolution.Earliest
import Mathlib.Data.List.Perm.Basic

/-!
The order of the statements of a file does not matter to its names. A name is looked for among
all declarations of the file, so a use may stand before the line that declares it or far
behind it.
-/

namespace Clipper

namespace Names

theorem declaredStmts_eq_flatMap (s : Scope) (ss : List Stmt) :
    declaredStmts s ss = ss.flatMap (declaredStmt s) := by
  induction ss with
  | nil => simp [declaredStmts]
  | cons t ts ih => rw [declaredStmts, ih, List.flatMap_cons]

theorem referredStmts_eq_flatMap (s : Scope) (ss : List Stmt) :
    referredStmts s ss = ss.flatMap (referredStmt s) := by
  induction ss with
  | nil => simp [referredStmts]
  | cons t ts ih => rw [referredStmts, ih, List.flatMap_cons]

end Names

namespace Program

variable {p q : Program}

theorem declarations_perm (h : p.statements.Perm q.statements) :
    p.declarations.Perm q.declarations := by
  rw [declarations, declarations, Names.declaredStmts_eq_flatMap, Names.declaredStmts_eq_flatMap]
  exact h.flatMap_right _

theorem references_perm (h : p.statements.Perm q.statements) :
    p.references.Perm q.references := by
  rw [references, references, Names.referredStmts_eq_flatMap, Names.referredStmts_eq_flatMap]
  exact h.flatMap_right _

end Program

namespace SymbolTable

variable {t : SymbolTable} {k : String}

/-- The keys of a table, in the order in which they were entered. -/
def keys (t : SymbolTable) : List String := t.entries.map Prod.fst

theorem mem_keys : k ∈ t.keys ↔ t.contains k = true := by
  rw [contains, lookup, List.lookup_isSome_iff, keys, List.mem_map]
  constructor
  · rintro ⟨e, he, rfl⟩
    exact ⟨e, he, beq_self_eq_true _⟩
  · rintro ⟨e, he, hk⟩
    exact ⟨e, he, (beq_iff_eq.mp hk).symm⟩

end SymbolTable

namespace Analysis

variable {ds es : List Declaration}

theorem contains_collect_perm (h : ds.Perm es) (k : String) :
    (collect ds).symbols.contains k = (collect es).symbols.contains k := by
  rw [Bool.eq_iff_iff, contains_collect, contains_collect]
  exact exists_congr fun d => and_congr_left fun _ => h.mem_iff

theorem keys_collect_perm (h : ds.Perm es) :
    (collect ds).symbols.keys.Perm (collect es).symbols.keys := by
  apply (List.perm_ext_iff_of_nodup (nodup_collect ds) (nodup_collect es)).mpr
  intro k
  show k ∈ (collect ds).symbols.keys ↔ k ∈ (collect es).symbols.keys
  rw [SymbolTable.mem_keys, SymbolTable.mem_keys, contains_collect_perm h]

/-- A declaration that has a name is entered or reported, and never both. -/
theorem length_collect (ds : List Declaration) :
    (collect ds).symbols.keys.length + (collect ds).faults.length =
      ds.countP (!·.name.isMissing) := by
  rw [SymbolTable.keys, List.length_map]
  induction ds using List.reverseRecOn with
  | nil => rfl
  | append_singleton ds d ih =>
      rw [collect_concat, entries_declare, faults_declare, List.countP_append, ← ih]
      cases hmissing : d.name.isMissing with
      | true => simp [hmissing]
      | false =>
          -- the key of `d` is either free, or taken by an earlier declaration
          cases hlookup : (collect ds).symbols.lookup d.key with
          | none =>
              simp [SymbolTable.contains, hlookup, hmissing]
              omega
          | some first =>
              simp [SymbolTable.contains, hlookup, hmissing]
              omega

theorem length_faults_perm (h : ds.Perm es) :
    (collect ds).faults.length = (collect es).faults.length := by
  have hkeys := (keys_collect_perm h).length_eq
  have hnamed := h.countP_eq (!·.name.isMissing)
  rw [← length_collect, ← length_collect] at hnamed
  omega

variable {symbols : SymbolTable} {x : Externals}

theorem code_collect (ds : List Declaration) :
    ∀ D ∈ (collect ds).faults.map Fault.diagnostic, D.code = some .redeclared := by
  intro D hD
  obtain ⟨f, hf, rfl⟩ := List.mem_map.mp hD
  obtain ⟨_, _, _, rfl, _⟩ := exists_of_mem_collect hf
  rfl

theorem code_undeclared (symbols : SymbolTable) (x : Externals) (rs : List Reference) :
    ∀ D ∈ (rs.filterMap (undeclared? symbols x)).map Fault.diagnostic,
      D.code = some .undeclared := by
  intro D hD
  obtain ⟨f, hf, rfl⟩ := List.mem_map.mp hD
  obtain ⟨r, -, hr⟩ := List.mem_filterMap.mp hf
  rw [undeclared?] at hr
  split at hr
  · cases hr
  · obtain rfl := Option.some.inj hr
    rfl

theorem filter_code {c : Code} {Ds : List Diagnostic} (h : ∀ D ∈ Ds, D.code = some c)
    (c' : Code) : Ds.filter (·.code == some c') = if c = c' then Ds else [] := by
  split
  · rename_i heq
    apply List.filter_eq_self.mpr
    intro D hD
    rw [h D hD, heq]
    exact beq_self_eq_true _
  · rename_i hne
    apply List.filter_eq_nil_iff.mpr
    intro D hD
    rw [h D hD, beq_iff_eq, Option.some_inj]
    exact hne

/-- The names that are declared again make up the first part of what is found. -/
theorem redeclared_part (x : Externals) (p : Program) :
    (ofProgram x p).diagnostics.filter (·.code == some .redeclared) =
      (collect p.declarations).faults.map Fault.diagnostic := by
  rw [diagnostics, ofProgram, List.map_append, List.filter_append, filter_code (code_collect _),
    filter_code (code_undeclared _ _ _)]
  exact List.append_nil _

/-- The names that are not declared make up the second. -/
theorem undeclared_part (x : Externals) (p : Program) :
    (ofProgram x p).diagnostics.filter (·.code == some .undeclared) =
      (p.references.filterMap (undeclared? (collect p.declarations).symbols x)).map
        Fault.diagnostic := by
  rw [diagnostics, ofProgram, List.map_append, List.filter_append, filter_code (code_collect _),
    filter_code (code_undeclared _ _ _)]
  exact List.nil_append _

theorem undeclared?_perm (h : ds.Perm es) (x : Externals) :
    undeclared? (collect ds).symbols x = undeclared? (collect es).symbols x := by
  have hcontains := funext (contains_collect_perm h)
  funext r
  rw [undeclared?, undeclared?, isKnown, isKnown, hcontains]

/-- However the statements of a program are reordered, the same keys are entered, as many
declarations are found to be made again, and the same uses are found to be undeclared, each as
often as before. -/
theorem reordered (x : Externals) {p q : Program} (h : p.statements.Perm q.statements) :
    (ofProgram x p).symbols.keys.Perm (ofProgram x q).symbols.keys ∧
      (ofProgram x p).diagnostics.countP (·.code == some .redeclared) =
        (ofProgram x q).diagnostics.countP (·.code == some .redeclared) ∧
      ((ofProgram x p).diagnostics.filter (·.code == some .undeclared)).Perm
        ((ofProgram x q).diagnostics.filter (·.code == some .undeclared)) := by
  have hdeclarations := Program.declarations_perm h
  refine ⟨keys_collect_perm hdeclarations, ?_, ?_⟩
  · rw [List.countP_eq_length_filter, List.countP_eq_length_filter, redeclared_part,
      redeclared_part, List.length_map, List.length_map]
    exact length_faults_perm hdeclarations
  · rw [undeclared_part, undeclared_part, undeclared?_perm hdeclarations]
    apply List.Perm.map
    apply List.Perm.filterMap
    exact Program.references_perm h

/-- A use and the declarations it is known by, turned round. -/
theorem reordered_reverse :
    (Parsed.ofSource "a := b\nLocal a\nLocal A\nLocal a" "t.prw").program.statements.Perm
        (Parsed.ofSource "a := b\nLocal a\nLocal A\nLocal a" "t.prw").program.statements.reverse ∧
      (ofProgram .none ⟨(Parsed.ofSource "a := b\nLocal a\nLocal A\nLocal a"
        "t.prw").program.statements.reverse⟩).diagnostics.countP (·.code == some .redeclared) =
          1 := by
  have hperm := (List.reverse_perm (Parsed.ofSource "a := b\nLocal a\nLocal A\nLocal a"
    "t.prw").program.statements).symm
  have hsame := (reordered .none (q := ⟨(Parsed.ofSource "a := b\nLocal a\nLocal A\nLocal a"
    "t.prw").program.statements.reverse⟩) hperm).2.1
  refine ⟨hperm, hsame.symm.trans ?_⟩
  decide +kernel

end Analysis

end Clipper
