import Clipper.Check
import Clipper.Proofs.Lexing.Word
import Clipper.Proofs.Likeness.Program
import Clipper.Proofs.Resolution.Keys

/-!
Which names are reported as undeclared: each use of a name that no declaration is in reach
of, once for each use.
-/

namespace Clipper

namespace Fault

def isUndeclared : Fault → Bool
  | undeclared _ _ => true
  | _ => false

end Fault

namespace Use

variable {p : Program} {u : Use}

@[simp] theorem isMethod_scope (h : Home) : h.scope.isMethod = h.isMethod := by
  cases h <;> rfl

theorem isExempt_reference (u : Use) : Analysis.isExempt u.reference = u.isExempt := by
  simp [Analysis.isExempt, reference, isExempt]

/-- Going through the keys a name may have finds what is in reach. -/
theorem isKnown_reference (hd : p.Distinct) (hp : p.Plain)
    (hentries : p.declarations.map Declaration.entry = p.items.flatMap Item.entries)
    (hu : u ∈ p.uses) (hn : Pointless u.name.text) (hne : u.name.isMissing = false)
    (x : Externals) :
    Analysis.isKnown (Analysis.collect p.declarations).symbols x u.reference = u.isKnown x p := by
  have hreach : (u.home.scope.candidates u.name.text).any
      (Analysis.collect p.declarations).symbols.contains =
        (u.home.inReach p).any (·.text == u.name.text) := by
    have hfile := Program.contains_file hp hentries hn hne
    obtain ⟨i, hi, hu⟩ := List.mem_flatMap.mp hu
    cases i with
    | use n =>
        obtain rfl := List.mem_singleton.mp hu
        simpa [Home.scope, Scope.candidates, Home.inReach] using hfile
    | var n => cases hu
    | function b r =>
        obtain ⟨n, _, rfl⟩ := List.mem_map.mp hu
        have hown := Program.contains_key hd hp hentries hi .function hn hne
        simp [Home.scope, Scope.candidates, Home.inReach, hfile, hown]
    | classDef d =>
        obtain ⟨m, hm, hu⟩ := List.mem_flatMap.mp hu
        obtain ⟨n, _, rfl⟩ := List.mem_map.mp hu
        have hown := Program.contains_key hd hp hentries hi (.method hm) hn hne
        have hclass := Program.contains_key hd hp hentries hi .classBody hn hne
        simp [Home.scope, Scope.candidates, Home.inReach, hfile, hown, hclass]
  rw [Analysis.isKnown, isKnown]
  exact congrArg (fun b => b || _ || _) hreach

end Use

/-! ### Programs that are read from a text -/

section

open Correspondence

variable {source file : String}

theorem pointless_of_legal {t : Token} (h : t ∈ (TokenStream.ofText file source).legal)
    (hk : t.kind = .identifier ∨ t.kind = .keyword .kwSelf) : Pointless t.literal :=
  (TokenStream.ofText_spelled file source t (TokenStream.mem_body_of_legal h)).not_mem_of_word hk
    Lexeme.isWordPart_point

theorem alike_program (source file : String) :
    Part.Alike (self (.ofText file source)) false
      (.statements (Parsed.ofSource source file).program.statements)
      (.statements (Parsed.ofSource source file).program.statements) :=
  statements_of_forall₂ (Parsed.alike_self source file).1

theorem flat_ofSource (source file : String) :
    ∀ i ∈ (Parsed.ofSource source file).program.items, i.Flat := fun i hi =>
  ((alike_program source file).flat i hi).1

theorem plain_ofSource (source file : String) : (Parsed.ofSource source file).program.Plain := by
  intro e he hmissing
  rw [← Program.entries_eq (flat_ofSource source file)] at he
  obtain ⟨d, hd, rfl⟩ := List.mem_map.mp he
  have halike := declarations_of_alike (alike_program source file)
  obtain ⟨hmem, hk⟩ := mem_legal_of_names (List.forall₂_same.mp halike d hd).name hmissing
  exact pointless_of_legal hmem (.inl hk)

theorem pointless_of_use {u : Use} (hu : u ∈ (Parsed.ofSource source file).program.uses)
    (hmissing : u.name.isMissing = false) : Pointless u.name.text := by
  have hr : u.reference ∈ (Parsed.ofSource source file).program.references := by
    rw [Program.references_eq (flat_ofSource source file)]
    exact List.mem_map_of_mem hu
  have halike := references_of_alike (alike_program source file)
  rcases mem_legal_of_mentions (List.forall₂_same.mp halike _ hr).name hmissing with
    ⟨hmem, hk⟩ | ⟨t, _, hn⟩
  · exact pointless_of_legal hmem hk
  · have hname : u.name.text = "Self" := congrArg Name.text hn
    rw [hname, Pointless]
    decide

end

namespace Fault

theorem code_diagnostic (f : Fault) :
    (f.diagnostic.code == some .undeclared) = f.isUndeclared := by
  cases f <;> rfl

end Fault

/-- The grammar knows no declarations, and what it reports has no code. -/
theorem code_parsed {source file : String} {f : Fault}
    (hf : f ∈ (Parsed.ofSource source file).faults) : f.diagnostic.code = none := by
  cases hillegal : f.illegal? with
  | some t => cases f <;> first | rfl | cases hillegal
  | none =>
      have h := (Parsed.alike_self source file).2 f hf hillegal
      cases h <;> rfl

theorem filter_undeclared_parsed (source file : String) :
    (Parsed.ofSource source file).faults.filter Fault.isUndeclared = [] := by
  rw [List.filter_eq_nil_iff]
  intro f hf
  rw [← Fault.code_diagnostic, code_parsed hf]
  decide

theorem filter_undeclared_collect (ds : List Declaration) :
    (Analysis.collect ds).faults.filter Fault.isUndeclared = [] := by
  rw [List.filter_eq_nil_iff]
  intro f hf
  obtain ⟨_, _, _, rfl, _⟩ := Analysis.exists_of_mem_collect hf
  simp [Fault.isUndeclared]

/-- The diagnostics about undeclared names are made reference by reference. -/
theorem filter_undeclared (x : Externals) (source file : String) :
    (Check.ofSource x source file).diagnostics.filter (·.code == some .undeclared) =
      ((Parsed.ofSource source file).program.references.filterMap
        (Analysis.undeclared?
          (Analysis.collect (Parsed.ofSource source file).program.declarations).symbols x)).map
        Fault.diagnostic := by
  have hfaults : (Check.ofSource x source file).diagnostics =
      ((Parsed.ofSource source file).faults ++
        (Analysis.ofProgram x (Parsed.ofSource source file).program).faults).map
          Fault.diagnostic := (List.map_append ..).symm
  have hcode : (fun d : Diagnostic => d.code == some .undeclared) ∘ Fault.diagnostic =
      Fault.isUndeclared := funext Fault.code_diagnostic
  rw [hfaults, List.filter_map, hcode, List.filter_append, filter_undeclared_parsed,
    Analysis.ofProgram, List.filter_append, filter_undeclared_collect, List.nil_append,
    List.nil_append]
  refine congrArg _ (List.filter_eq_self.mpr fun f hf => ?_)
  obtain ⟨u, _, hu⟩ := List.mem_filterMap.mp hf
  rw [Analysis.undeclared?] at hu
  split at hu
  · cases hu
  · rw [← Option.some.inj hu, Fault.isUndeclared]

/-- A use is reported exactly where no declaration in reach has its name. -/
theorem undeclared?_reference (x : Externals) {source file : String}
    (hd : (Parsed.ofSource source file).program.Distinct) {u : Use}
    (hu : u ∈ (Parsed.ofSource source file).program.uses) :
    Analysis.undeclared?
        (Analysis.collect (Parsed.ofSource source file).program.declarations).symbols x
        u.reference =
      if !u.isExempt && !u.isKnown x (Parsed.ofSource source file).program then some u.fault
      else none := by
  have hentries := Program.entries_eq (flat_ofSource source file)
  rw [Analysis.undeclared?, u.isExempt_reference]
  cases hexempt : u.isExempt with
  | true => simp
  | false =>
      have hmissing : u.name.isMissing = false := by
        rw [Use.isExempt, Bool.or_eq_false_iff] at hexempt
        exact hexempt.1
      rw [Use.isKnown_reference hd (plain_ofSource source file) hentries hu
        (pointless_of_use hu hmissing) hmissing]
      cases u.isKnown x (Parsed.ofSource source file).program <;> rfl

/-- The diagnostics about undeclared names are those of the uses that no declaration is in
reach of: in a routine a parameter or a variable of that routine, in a method an attribute or
a method of its class too, and anywhere what the file declares. Each use has one. -/
theorem undeclared_diagnostics (x : Externals) (source file : String)
    (hd : (Parsed.ofSource source file).program.Distinct) :
    (Check.ofSource x source file).diagnostics.filter (·.code == some .undeclared) =
      ((Parsed.ofSource source file).program.uses.filter fun u =>
        !u.isExempt && !u.isKnown x (Parsed.ofSource source file).program).map
          fun u => u.fault.diagnostic := by
  have hreferences : (Parsed.ofSource source file).program.references.filterMap
      (Analysis.undeclared?
        (Analysis.collect (Parsed.ofSource source file).program.declarations).symbols x) =
      ((Parsed.ofSource source file).program.uses.filter fun u =>
        !u.isExempt && !u.isKnown x (Parsed.ofSource source file).program).map Use.fault := by
    rw [Program.references_eq (flat_ofSource source file), List.filterMap_map,
      ← List.filterMap_eq_map, List.filterMap_filter]
    exact List.filterMap_congr fun u hu => undeclared?_reference x hd hu
  rw [filter_undeclared, hreferences, List.map_map]
  rfl

/-- A variable of one routine is not known in another. -/
theorem undeclared_diagnostics_routines :
    (Parsed.ofSource "Function F(a)\nReturn a\nFunction G()\nReturn a" "t.prw").program.Distinct ∧
      (Check.ofSource .none "Function F(a)\nReturn a\nFunction G()\nReturn a"
          "t.prw").diagnostics.filter (·.code == some .undeclared) =
        [(Fault.undeclared "a" ⟨.identifier, "a", ⟨43, 44⟩, 4, 8, "t.prw"⟩).diagnostic] := by
  have hd : (Parsed.ofSource "Function F(a)\nReturn a\nFunction G()\nReturn a"
      "t.prw").program.Distinct := by
    decide +kernel
  refine ⟨hd, (undeclared_diagnostics .none _ _ hd).trans ?_⟩
  decide +kernel

end Clipper
