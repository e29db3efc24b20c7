import Clipper.Proofs.Grammar.Soundness.Expression
import Clipper.Proofs.Rendering.Phrases
import Clipper.Proofs.Rendering.Recasing

/-!
A program rendered in two styles. The texts have the same tokens and the same line breaks, so the
same is read from them, and the same found wrong with them.
-/

namespace Clipper

namespace Correspondence

theorem lines_append (l : Nat) (ts us : List Token) :
    lines l (ts ++ us) = lines l ts ++ lines ((ts.getLast?.map Token.endLine).getD l) us := by
  induction ts generalizing l with
  | nil => rfl
  | cons t ts ih =>
      rw [List.cons_append, lines, lines, ih, List.cons_append]
      cases ts <;> simp [List.getLast?_cons]

theorem length_lines (l : Nat) (ts : List Token) : (lines l ts).length = ts.length := by
  induction ts generalizing l with
  | nil => rfl
  | cons t ts ih => rw [lines, List.length_cons, List.length_cons, ih]

end Correspondence

namespace Parsed

open Correspondence Grammar Layout Canonical

variable {source source' file : String}

/-! ### Texts of the same tokens -/

theorem legal_of_tokens (h : ∀ t ∈ tokens source file, t.isIllegal = false) :
    (TokenStream.ofText file source).legal = (TokenStream.ofText file source).body := by
  refine List.filter_eq_self.mpr fun t ht => ?_
  rw [h t (List.mem_append_left _ ht)]
  rfl

theorem body_of_tokens (h : ∀ t ∈ tokens source file, t.isIllegal = false)
    (h' : ∀ t ∈ tokens source' file, t.isIllegal = false)
    (hsame : List.Forall₂ Token.SameUpToCase (tokens source file) (tokens source' file))
    (hlines : lines 1 (tokens source file) = lines 1 (tokens source' file)) :
    List.Forall₂ Token.SameUpToCase (TokenStream.ofText file source).legal
        (TokenStream.ofText file source').legal ∧
      joints (TokenStream.ofText file source).legal =
        joints (TokenStream.ofText file source').legal := by
  rw [tokens, tokens, TokenStream.toList, TokenStream.toList] at hsame hlines
  have hlength : (TokenStream.ofText file source).body.length =
      (TokenStream.ofText file source').body.length := by
    simpa using hsame.length_eq
  rw [legal_of_tokens h, legal_of_tokens h']
  constructor
  · have hbody := List.forall₂_take_append _ _ _ hsame
    rwa [← hlength, List.take_left] at hbody
  · rw [lines_append, lines_append] at hlines
    rw [← lines_tail 1, ← lines_tail 1]
    exact congrArg List.tail (List.append_inj hlines (by rw [length_lines, length_lines, hlength])).1

/-- What is wrong with the one text is wrong with the other. -/
theorem diagnostics_of_tokens
    (hsame : List.Forall₂ Token.SameUpToCase (TokenStream.ofText file source).legal
      (TokenStream.ofText file source').legal)
    (hjoints : joints (TokenStream.ofText file source).legal =
      joints (TokenStream.ofText file source').legal) :
    List.Forall₂ Diagnostic.SameUpToCase
      (((ofSource source file).faults.filter (·.illegal?.isNone)).map Fault.diagnostic)
      (((ofSource source' file).faults.filter (·.illegal?.isNone)).map Fault.diagnostic) := by
  have hends : ∀ {t u}, recasing.ending t u → u.isEnd = true := fun h => by
    rw [Token.isEnd, ← h.1.1]
    exact h.2.2
  have htokens : List.Forall₂ recasing.token (TokenStream.ofText file source).legal
      (TokenStream.ofText file source').legal :=
    (TokenStream.forall₂_ofText hsame (fun _ => TokenStream.mem_body_of_legal)
      fun _ => TokenStream.mem_body_of_legal).imp fun _ _ h => ⟨h.1, h.2.1, h.2.2.1⟩
  have hlast : recasing.ending (TokenStream.ofText file source).last
      (TokenStream.ofText file source').last := by
    obtain ⟨hkind, hliteral, hfile, hend⟩ := TokenStream.last_ofText source source' file
    refine ⟨⟨hkind, ?_⟩, hfile, hend⟩
    rw [hliteral]
    exact TokenKind.sameSpelling_self _ _
  have hfaults := (Parsed.alike trivial hends rfl ⟨rfl, rfl⟩ htokens hjoints hlast).2
  rw [List.forall₂_map_left_iff, List.forall₂_map_right_iff]
  exact hfaults.imp fun _ _ => diagnostic_of_recasing

theorem faults_of_tokens (h : ∀ t ∈ tokens source file, t.isIllegal = false) :
    (ofSource source file).faults.filter (·.illegal?.isNone) = (ofSource source file).faults := by
  have hs := TokenStream.closed_ofText file source
  obtain ⟨r, hreads, hfaults⟩ := exists_reads hs
  have hnone : (TokenStream.ofText file source).body.filter Token.isIllegal = [] :=
    List.filter_eq_nil_iff.mpr fun t ht => by simp [h t (List.mem_append_left _ ht)]
  have hillegal := hreads.illegals
  rw [hnone, ← hfaults, List.filterMap_eq_nil_iff] at hillegal
  exact List.filter_eq_self.mpr fun f hf => by simp [hillegal f hf]

/-! ### The text of a program -/

theorem toList_render (style : Style) (p : Program) :
    (p.render style).toList = written style 0 true (topLevel none p.statements) := by
  rw [Program.render, Layout.render, foldl_put]
  rfl

/-- What is read without an error is such as a text can have. -/
theorem legible_of_isOk (hok : (ofSource source file).isOk = true)
    (hpending : ∀ t ∈ tokens source file, t.isPending = false) :
    ∀ s ∈ (ofSource source file).program.statements, Part.Legible false (.statement s) := by
  have hclean : ∀ f ∈ (ofSource source file).faults, true = true ∧ f.isError = false := by
    intro f hf
    rw [isOk, diagnostics, List.all_map, List.all_eq_true] at hok
    exact ⟨rfl, by simpa [Fault.isError_diagnostic] using hok f hf⟩
  obtain ⟨l, hderives⟩ := derives_program (TokenStream.closed_ofText file source) hclean
  exact (hderives.legible (tokens_writable hpending)).1

/-- Rendered without a fault a program is written with the same tokens in every style. -/
theorem twin_render (hok : (ofSource source file).isOk = true)
    (hpending : ∀ t ∈ tokens source file, t.isPending = false) (a b : Style) :
    Twin ((ofSource source file).program.render a).toList
      ((ofSource source file).program.render b).toList := by
  have hstatements : ∀ s ∈ (ofSource source file).program.statements,
      Moves a b .free .behind (stmt s) := fun s hs =>
    movesAlike (legible_of_isOk hok hpending s hs)
  rw [toList_render, toList_render]
  -- Behind the last line nothing is left to be written.
  have hnil : Stance.fresh.Allows a b 0 [] := Twin.nil
  have := moves_topLevel hstatements 0 [] hnil
  rwa [List.append_nil] at this

theorem sameTokens_render (hok : (ofSource source file).isOk = true)
    (hpending : ∀ t ∈ tokens source file, t.isPending = false) (file' : String) (a b : Style) :
    List.Forall₂ Token.SameUpToCase (tokens ((ofSource source file).program.render a) file')
        (tokens ((ofSource source file).program.render b) file') ∧
      lines 1 (tokens ((ofSource source file).program.render a) file') =
        lines 1 (tokens ((ofSource source file).program.render b) file') ∧
      ∀ t ∈ tokens ((ofSource source file).program.render a) file', t.isIllegal = false := by
  have htwin := twin_render hok hpending a b
  generalize (ofSource source file).program.render a = text at htwin ⊢
  generalize (ofSource source file).program.render b = text' at htwin ⊢
  have hstart : ∀ text : String, 1 ≤ (Cursor.ofText text.toList).place.line := fun _ =>
    Nat.le_refl 1
  exact htwin.sameTokens rfl rfl (hstart text) (hstart text') Iff.rfl

end Parsed

/-- Two texts with the same tokens, but for the case of words, and the same line breaks between
them. From both the same is read, and the same is wrong with both, in messages that quote the
tokens of each text in their own case. -/
structure SameText (file source source' : String) : Prop where
  tokens : List.Forall₂ Token.SameUpToCase (tokens source file) (tokens source' file)
  lines : Correspondence.lines 1 (Clipper.tokens source file) =
    Correspondence.lines 1 (Clipper.tokens source' file)
  program : (Parsed.ofSource source file).program.shape =
    (Parsed.ofSource source' file).program.shape
  faults : (Parsed.ofSource source file).faults.map Fault.shape =
    (Parsed.ofSource source' file).faults.map Fault.shape
  diagnostics : List.Forall₂ Diagnostic.SameUpToCase (Parsed.ofSource source file).diagnostics
    (Parsed.ofSource source' file).diagnostics

open Parsed Correspondence in
/-- A style says how a program is laid out and how its words are cased, and nothing else. -/
theorem render_sameText {source file : String} (hok : (Parsed.ofSource source file).isOk = true)
    (hpending : ∀ t ∈ tokens source file, t.isPending = false) (file' : String) (a b : Style) :
    SameText file' ((Parsed.ofSource source file).program.render a)
      ((Parsed.ofSource source file).program.render b) := by
  obtain ⟨hwords, hlines, hlegal⟩ := sameTokens_render hok hpending file' a b
  obtain ⟨-, -, hlegal'⟩ := sameTokens_render hok hpending file' b a
  obtain ⟨hlegal₂, hjoints⟩ := body_of_tokens hlegal hlegal' hwords hlines
  have hdiagnostics := diagnostics_of_tokens hlegal₂ hjoints
  obtain ⟨halike, hfaults⟩ := alike_spacing ⟨hlegal₂.imp fun _ _ h => h.sameWord, hjoints⟩
  rw [faults_of_tokens hlegal, faults_of_tokens hlegal'] at hdiagnostics hfaults
  exact ⟨hwords, hlines, congrArg Program.mk (relabels_spacing.statements halike),
    Relabels.forall₂_map hfaults fun _ _ => fault_shape_of_spacing, hdiagnostics⟩

/-- A class with a member of the receiver, a dotted operator, a logical value and an escaped
delimiter. -/
def memberSource : String :=
  "Class a\nData b\nMethod d(e)\nIf e .and. ::b # 'x\\''\nReturn 1.\nEndIf\nEndClass\nf = !.t.\n"

theorem render_sameText_member :
    (Parsed.ofSource memberSource "t.prw").isOk = true ∧
      (∀ t ∈ tokens memberSource "t.prw", t.isPending = false) ∧
      SameText "t.prw" ((Parsed.ofSource memberSource "t.prw").program.render ⟨0, .upper, 0⟩)
        ((Parsed.ofSource memberSource "t.prw").program.render ⟨4, .pascal, 1⟩) := by
  have hok : (Parsed.ofSource memberSource "t.prw").isOk = true := by decide +kernel
  have hpending : ∀ t ∈ tokens memberSource "t.prw", t.isPending = false := by decide +kernel
  exact ⟨hok, hpending, render_sameText hok hpending "t.prw" _ _⟩

/-- Nested deeply enough that the parentheses of the canonical form go too deep. -/
def deepSource : String := String.join (List.replicate 32 "!") ++ "If c\nEndIf\n"

/-- A message quotes a word in the case that the style has written it in. -/
theorem messages_quote_case :
    (Parsed.ofSource deepSource "t.prw").isOk = true ∧
      (∀ t ∈ tokens deepSource "t.prw", t.isPending = false) ∧
      (Parsed.ofSource ((Parsed.ofSource deepSource "t.prw").program.render ⟨4, .upper, 1⟩)
          "t.prw").diagnostics.map (·.message) ≠
        (Parsed.ofSource ((Parsed.ofSource deepSource "t.prw").program.render ⟨4, .pascal, 1⟩)
          "t.prw").diagnostics.map (·.message) := by
  refine ⟨?_, ?_, ?_⟩ <;> decide +kernel

end Clipper
