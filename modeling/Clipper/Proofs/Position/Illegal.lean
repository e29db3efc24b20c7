import Clipper.Proofs.Position.Tiling

/-!
Illegal characters. Each one is reported once, where it stands and in the order of the text,
whatever becomes of the statement around it. Nothing else that is reported stands at one.
-/

namespace Clipper

/-! ### Messages -/

/-- The message begins as those about illegal characters do. -/
def Diagnostic.isIllegal (D : Diagnostic) : Bool :=
  "illegal character ".toList.isPrefixOf D.message.toList

/-- The diagnostic names an illegal character and spans it. -/
structure Diagnostic.TellsIllegal (t : Token) (D : Diagnostic) : Prop where
  stage : D.stage = .lexical
  severity : D.severity = .error
  message : D.message = "illegal character '" ++ t.literal ++ "'"
  file : D.file = t.file
  span : D.span = t.span
  line : D.line = t.line
  column : D.column = t.column
  endLine : D.endLine = some t.endLine
  endColumn : D.endColumn = some t.endColumn

namespace Fault

variable {t : Token}

theorem toList_describe (t : Token) :
    t.describe.toList = "end of input".toList ∨
      t.describe.toList = '\'' :: (t.literal.toList ++ ['\'']) := by
  rw [Token.describe]
  split
  · exact .inl rfl
  · right
    simp

/-- Of all messages only those about illegal characters begin so. -/
theorem isIllegal_diagnostic (f : Fault) : f.diagnostic.isIllegal = f.illegal?.isSome := by
  cases f with
  | illegalCharacter t =>
      simp [diagnostic, lexical, Diagnostic.onToken, Diagnostic.through, Diagnostic.isIllegal,
        illegal?]
  | notAStatement t =>
      -- here the message begins with what was found
      show "illegal character ".toList.isPrefixOf
        (t.describe ++ " cannot start a statement").toList = false
      rw [String.toList_append]
      rcases toList_describe t with h | h <;> rw [h] <;> rfl
  | _ =>
      simp [diagnostic, syntactic, lexical, Diagnostic.onToken, Diagnostic.isIllegal,
        Diagnostic.withNote, Diagnostic.withHint, Diagnostic.withCode, Diagnostic.withSeverity,
        Diagnostic.through, illegal?]
      rfl

theorem tellsIllegal (h : t.isIllegal = true) :
    Diagnostic.TellsIllegal t (illegalCharacter t).diagnostic where
  stage := rfl
  severity := rfl
  message := by
    have hopen : t.isEnd = false := by
      rw [Token.isIllegal, beq_iff_eq] at h
      rw [Token.isEnd, h]
      rfl
    show "illegal character " ++ t.describe = _
    rw [Token.describe, hopen, if_neg Bool.false_ne_true, ← String.append_assoc,
      ← String.append_assoc]
    rfl
  file := rfl
  span := Span.merge_self _
  line := rfl
  column := rfl
  endLine := rfl
  endColumn := rfl

end Fault

/-! ### Places -/

/-- A diagnostic that begins elsewhere than a token and covers nothing of it. -/
structure Diagnostic.Off (t : Token) (D : Diagnostic) : Prop where
  line_column : (D.line, D.column) ≠ (t.line, t.column)
  span : D.span.stop ≤ t.span.start ∨ t.span.stop ≤ D.span.start

/-- Of two tokens one ends before the other begins, and they begin at different places. -/
theorem tokens_apart {source file : String} {t u : Token} (ht : t ∈ tokens source file)
    (hu : u ∈ tokens source file) (hne : u ≠ t) :
    (u.line, u.column) ≠ (t.line, t.column) ∧
      (u.span.stop ≤ t.span.start ∨ t.span.stop ≤ u.span.start) := by
  obtain ⟨c, hts, hend, hlast⟩ := (TokenStream.ofText_iff file source _).mp rfl
  have hordered : (tokens source file).Pairwise fun t u => t.span.stop ≤ u.span.start := by
    have htiled : Tiled source.toList true [] _ := hts.tiled hend rfl rfl
    rw [tokens, TokenStream.toList, ← hlast]
    exact htiled.ordered
  have hpairwise : (tokens source file).Pairwise fun t u => t.place.Before u.place :=
    TokenStream.ofText_pairwise file source
  obtain ⟨i, hi, rfl⟩ := List.mem_iff_getElem.mp ht
  obtain ⟨j, hj, rfl⟩ := List.mem_iff_getElem.mp hu
  rcases Nat.lt_trichotomy i j with hlt | rfl | hlt
  · have hbefore := List.pairwise_iff_getElem.mp hpairwise i j hi hj hlt
    exact ⟨hbefore.line_column.symm, .inr (List.pairwise_iff_getElem.mp hordered i j hi hj hlt)⟩
  · exact absurd rfl hne
  · have hbefore := List.pairwise_iff_getElem.mp hpairwise j i hj hi hlt
    exact ⟨hbefore.line_column, .inl (List.pairwise_iff_getElem.mp hordered j i hj hi hlt)⟩

section

open Correspondence

variable {source file : String} {f : Fault} {t : Token}

theorem not_isIllegal_of_meets (h : (self (.ofText file source)).Meets t t) :
    t.isIllegal = false := by
  rcases h with h | h
  · have hlegal := (List.mem_filter.mp h.2.1).2
    simpa using hlegal
  · have hend : t.isEnd = true := h.2.2
    rw [Token.isEnd, beq_iff_eq] at hend
    rw [Token.isIllegal, hend]
    rfl

theorem not_isIllegal_of_legal (h : t ∈ (TokenStream.ofText file source).legal) :
    t.isIllegal = false := by
  simpa using (List.mem_filter.mp h).2

/-- What else the grammar finds wrong it finds at another token. -/
theorem marked_not_isIllegal (hf : f ∈ (Parsed.ofSource source file).faults)
    (hillegal : f.illegal? = none) : f.marked.isIllegal = false := by
  have h := (Parsed.alike_self source file).2 f hf hillegal
  cases h with
  | expected _ h | unclosed _ _ h | notAStatement h | notAnExpression h | lineGoesOn h
  | notAssignable h | tooDeep h => exact not_isIllegal_of_meets h
  | otherCounter h _ _ => exact not_isIllegal_of_legal h.2.1
  | integerTooLarge h | malformedNumber h => exact not_isIllegal_of_legal h.2.1

end

/-! ### Diagnostics -/

theorem illegal_faults (source file : String) :
    (Parsed.ofSource source file).faults.filterMap Fault.illegal? =
      (tokens source file).filter Token.isIllegal := by
  have hclosed := TokenStream.closed_ofText file source
  obtain ⟨r, hreads, hfaults⟩ := Grammar.exists_reads hclosed
  have hlast : (TokenStream.ofText file source).last.isIllegal = false := by
    have hend := hclosed.last_isEnd
    rw [Token.isEnd, beq_iff_eq] at hend
    rw [Token.isIllegal, hend]
    rfl
  rw [tokens, TokenStream.toList, List.filter_append, List.filter_singleton, hlast]
  show _ = _ ++ []
  rw [List.append_nil, ← hreads.illegals]
  exact congrArg _ hfaults

theorem filter_isIllegal (fs : List Fault) :
    (fs.map Fault.diagnostic).filter Diagnostic.isIllegal =
      (fs.filterMap Fault.illegal?).map fun t => (Fault.illegalCharacter t).diagnostic := by
  induction fs with
  | nil => rfl
  | cons f fs ih =>
      rw [List.map_cons, List.filter_cons, Fault.isIllegal_diagnostic, ih]
      cases f <;> rfl

/-- There is one diagnostic about an illegal character for each illegal token, in the order of
the text, and it spans that token. Every other diagnostic of the grammar is off those tokens. -/
theorem illegal_diagnostics (source file : String) :
    List.Forall₂ Diagnostic.TellsIllegal ((tokens source file).filter Token.isIllegal)
        ((Parsed.ofSource source file).diagnostics.filter Diagnostic.isIllegal) ∧
      ∀ D ∈ (Parsed.ofSource source file).diagnostics, D.isIllegal = false →
        ∀ t ∈ tokens source file, t.isIllegal = true → D.Off t := by
  constructor
  · rw [Parsed.diagnostics, filter_isIllegal, illegal_faults, List.forall₂_map_right_iff,
      List.forall₂_same]
    intro t ht
    exact Fault.tellsIllegal (List.mem_filter.mp ht).2
  · intro D hD hother t ht hillegal
    obtain ⟨f, hf, rfl⟩ := List.mem_map.mp hD
    rw [Fault.isIllegal_diagnostic, Option.isSome_eq_false_iff, Option.isNone_iff_eq_none] at hother
    obtain ⟨hspan, hline, hcolumn⟩ := f.diagnostic_start
    have hne : f.marked ≠ t := by
      rintro rfl
      exact Bool.false_ne_true ((marked_not_isIllegal hf hother).symm.trans hillegal)
    obtain ⟨hplace, hspans⟩ := tokens_apart ht (marks_of_parsed hf).mem hne
    constructor
    · rwa [hline, hcolumn]
    · rwa [hspan]

end Clipper
