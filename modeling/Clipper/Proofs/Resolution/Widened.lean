import Clipper.Check
import Clipper.Proofs.Resolution.Reordered

/-!
Names from outside. To name more of them takes from what is found wrong the uses of those names,
and changes nothing else.
-/

namespace Clipper

namespace Fault

/-- The name that a fault says is not declared. -/
def undeclaredName? : Fault → Option String
  | undeclared name _ => some name
  | _ => none

end Fault

namespace Externals

variable {x y : Externals} {n : String}

/-- A use of one of the names, which they make known, is found undeclared. -/
def clears (x : Externals) (f : Fault) : Bool := f.undeclaredName?.any x.contains

theorem contains_mono (h : x.names ⊆ y.names) (hn : x.contains n = true) : y.contains n = true := by
  rw [contains, List.any_eq_true] at hn ⊢
  obtain ⟨m, hm, hword⟩ := hn
  exact ⟨m, h hm, hword⟩

end Externals

namespace Analysis

variable {x y : Externals} {symbols : SymbolTable} {r : Reference}

theorem isKnown_widened (h : x.names ⊆ y.names) :
    isKnown symbols y r = (isKnown symbols x r || y.contains r.name.text) := by
  rw [isKnown, isKnown]
  cases hx : x.contains r.name.text with
  | false => rw [Bool.or_false]
  | true =>
      rw [Externals.contains_mono h hx]
      simp

theorem undeclared?_widened (h : x.names ⊆ y.names) (r : Reference) :
    undeclared? symbols y r = (undeclared? symbols x r).filter fun f => !y.clears f := by
  rw [undeclared?, undeclared?, isKnown_widened h, ← Bool.or_assoc]
  cases isExempt r || isKnown symbols x r with
  | true => rfl
  | false =>
      -- unknown so far: what is left to ask is whether the name is one of the new ones
      show (if y.contains r.name.text then none else _) =
        if !y.contains r.name.text then _ else _
      cases y.contains r.name.text <;> rfl

/-- A name that is declared again is not about any name from outside. -/
theorem not_clears_of_mem_collect {ds : List Declaration} {f : Fault}
    (hf : f ∈ (collect ds).faults) : y.clears f = false := by
  obtain ⟨_, _, _, rfl, _⟩ := exists_of_mem_collect hf
  rfl

/-- With more names from outside the same symbols are entered, and the same is found wrong, in the
same order, but for the uses of those names, which are no longer undeclared. -/
theorem widened (h : x.names ⊆ y.names) (p : Program) :
    (ofProgram y p).symbols = (ofProgram x p).symbols ∧
      (ofProgram y p).diagnostics =
        ((ofProgram x p).faults.filter fun f => !y.clears f).map Fault.diagnostic ∧
      (ofProgram y p).diagnostics.filter (·.code == some .redeclared) =
        (ofProgram x p).diagnostics.filter (·.code == some .redeclared) := by
  refine ⟨rfl, ?_, ?_⟩
  · rw [diagnostics]
    apply congrArg (List.map Fault.diagnostic)
    rw [ofProgram, ofProgram, List.filter_append, List.filter_filterMap]
    have hcollect : (collect p.declarations).faults.filter (fun f => !y.clears f) =
        (collect p.declarations).faults := by
      apply List.filter_eq_self.mpr
      intro f hf
      rw [not_clears_of_mem_collect hf, Bool.not_false]
    rw [hcollect]
    apply congrArg ((collect p.declarations).faults ++ ·)
    apply List.filterMap_congr
    intro r _
    exact undeclared?_widened h r
  · rw [redeclared_part, redeclared_part]

/-- One of two unknown names is named from outside, in capitals. -/
theorem widened_none :
    Externals.none.names ⊆ (⟨["B"]⟩ : Externals).names ∧
      (ofProgram ⟨["B"]⟩ (Parsed.ofSource "Local x := b + c\nLocal x\n" "t.prw").program).diagnostics =
        [(Fault.redeclared "x" ⟨.identifier, "x", ⟨23, 24⟩, 2, 7, "t.prw"⟩
            ⟨.identifier, "x", ⟨6, 7⟩, 1, 7, "t.prw"⟩).diagnostic,
          (Fault.undeclared "c" ⟨.identifier, "c", ⟨15, 16⟩, 1, 16, "t.prw"⟩).diagnostic] := by
  have hsubset : Externals.none.names ⊆ (⟨["B"]⟩ : Externals).names := List.nil_subset _
  refine ⟨hsubset, ((widened hsubset _).2.1).trans ?_⟩
  decide +kernel

end Analysis

end Clipper
