import Clipper.Proofs.Breaks.Phrases
import Clipper.Proofs.Faults.Accounts
import Clipper.Proofs.Grammar.Completeness.Program
import Clipper.Proofs.Likeness.Spacing

/-!
A text without errors in which lines are broken elsewhere, where they can be broken or not. The
same program is read from it, and the same is said of it.
-/

namespace Clipper

/-- Without the places of its tokens. -/
def Program.unplaced (p : Program) : Program := (Relabelling.all Token.unplaced).program p

/-- Without the places of its tokens. -/
def Fault.unplaced : Fault → Fault
  | expected what found => expected what found.unplaced
  | unclosed closer opener found => unclosed closer opener.unplaced found.unplaced
  | notAStatement found => notAStatement found.unplaced
  | notAnExpression found => notAnExpression found.unplaced
  | lineGoesOn found => lineGoesOn found.unplaced
  | notAssignable target => notAssignable target.unplaced
  | illegalCharacter token => illegalCharacter token.unplaced
  | tooDeep found => tooDeep found.unplaced
  | otherCounter found counter => otherCounter found.unplaced counter.unplaced
  | integerTooLarge token => integerTooLarge token.unplaced
  | malformedNumber token => malformedNumber token.unplaced
  | undeclared name token => undeclared name token.unplaced
  | redeclared name token first => redeclared name token.unplaced first.unplaced

/-- Without its place and without its notes, which name places. -/
def Diagnostic.unplaced (d : Diagnostic) : Diagnostic :=
  { d with span := ⟨0, 0⟩, line := 0, column := 0, endLine := none, endColumn := none, notes := [] }

theorem Fault.diagnostic_unplaced (f : Fault) :
    f.unplaced.diagnostic.unplaced = f.diagnostic.unplaced := by
  cases f <;> rfl

/-- The same program and the same findings, at other places. -/
structure Parsed.SameUnplaced (p p' : Parsed) : Prop where
  program : p.program.unplaced = p'.program.unplaced
  faults : p.faults.map Fault.unplaced = p'.faults.map Fault.unplaced
  diagnostics : p.diagnostics.map Diagnostic.unplaced = p'.diagnostics.map Diagnostic.unplaced

theorem Parsed.isError_of_isOk {p : Parsed} (h : p.isOk = true) :
    ∀ f ∈ p.faults, f.isError = false := by
  rw [isOk, diagnostics, List.all_map, List.all_eq_true] at h
  exact fun f hf => by simpa [Fault.isError_diagnostic] using h f hf

namespace Correspondence

theorem isEnd_of_ending {t u : Token} (h : verbatim.ending t u) : u.isEnd = true := by
  rw [Token.isEnd, ← h.1.1]
  exact h.2.2

theorem fault_unplaced_of_verbatim {f f' : Fault} (h : verbatim.Faults f f') :
    f.unplaced = f'.unplaced := by
  cases h with
  | expected _ h | notAStatement h | notAnExpression h | lineGoesOn h | notAssignable h
  | tooDeep h => simp [Fault.unplaced, (unplaced_of_verbatim h).1]
  | unclosed _ h h' =>
      simp [Fault.unplaced, (unplaced_of_verbatim (.inl h)).1, (unplaced_of_verbatim h').1]
  | otherCounter h _ h' =>
      simp [Fault.unplaced, (unplaced_of_verbatim (.inl h)).1, (unplaced_of_verbatim (.inl h')).1]
  | integerTooLarge h | malformedNumber h =>
      simp [Fault.unplaced, (unplaced_of_verbatim (.inl h)).1]

end Correspondence

namespace Enclosure

open Correspondence Grammar

variable {e : Enclosure} {s w : Spot} {ns ns' ts us : List Token} {n n' : Token}

/-! ### Counters -/

/-- Behind `Next` both texts have the same name on the line, or none. -/
theorem Abreast.again (h : e.Abreast true s w) (he : e.behindNext = true)
    (hn : verbatim.token n n') :
    List.Forall₂ verbatim.Faults (Grammar.again n s) (Grammar.again n' w) := by
  obtain ⟨l, ts⟩ := s
  obtain ⟨l', us⟩ := w
  obtain ⟨t, u, _, _, rfl, rfl, hmeets⟩ := h.texts.meets
  have hkind := kind_of_verbatim hmeets
  rw [again_cons, again_cons]
  by_cases hname : t.kind = .identifier
  · have hopen := Token.isEnd_of_kind hname rfl
    have htoken : verbatim.token t u :=
      hmeets.elim id fun hend => absurd hend.2.2 (Bool.eq_false_iff.mp hopen)
    have hline : (t.line == l) = (u.line == l') :=
      h.keeps rfl t rfl u rfl hopen (isFree_name he hname)
    have hiff : t.line = l ↔ u.line = l' := by simpa using Bool.eq_iff_iff.mp hline
    have hmissing : (Name.mk n').isMissing = (Name.mk n).isMissing := by
      simp [Name.isMissing, Name.text, hn.1.2]
    simp only [← hkind, hmissing, ← htoken.1.2, ← hn.1.2, hiff]
    split
    · exact .cons (.otherCounter htoken hname hn) .nil
    · exact .nil
  · have hname' : ¬u.kind = .identifier := hkind ▸ hname
    simp [hname, hname']

theorem Texts.recounts (h : e.Texts ts us) (hns : List.Forall₂ verbatim.token ns ns') :
    List.Forall₂ verbatim.Faults (recounts ns ts) (recounts ns' us) := by
  induction h generalizing ns ns' with
  | ended hend =>
      rw [recounts_end hend.2.2, recounts_end (isEnd_of_ending hend)]
      exact .nil
  | @step e t u ts us htoken _ hkeeps htexts ih =>
      have hkeyword : ∀ k, u.isKeyword k = t.isKeyword k := fun k => by
        simp [Token.isKeyword, htoken.1.1]
      cases hfor : t.isKeyword .kwFor with
      | true =>
          -- The name behind is the counter of the loop.
          cases htexts with
          | ended hend =>
              have hfor' := (hkeyword _).trans hfor
              rw [recounts_for hfor, recounts_for hfor', recounts_end hend.2.2,
                recounts_end (isEnd_of_ending hend)]
              exact .nil
          | step hcounter _ _ _ =>
              rw [recounts_for hfor, recounts_for ((hkeyword _).trans hfor)]
              exact ih (.cons hcounter hns)
      | false =>
          cases hnext : t.isKeyword .kwNext with
          | false =>
              have hskip : t.countsLoop = false := by simp [Token.countsLoop, hfor, hnext]
              have hskip' : u.countsLoop = false := by
                simp [Token.countsLoop, hkeyword, hfor, hnext]
              rw [recounts_skip hskip, recounts_skip hskip']
              exact ih hns
          | true =>
              have hnext' := (hkeyword _).trans hnext
              cases hns with
              | nil =>
                  rw [recounts_unopened hnext, recounts_unopened hnext']
                  exact ih .nil
              | cons hn hns =>
                  rw [recounts_next hnext, recounts_next hnext']
                  exact List.rel_append (Abreast.again ⟨htexts, fun _ => hkeeps⟩ hnext hn) (ih hns)

end Enclosure

/-! ### Whole texts -/

namespace Parsed

open Correspondence Grammar Enclosure

variable {source source' file : String}

/-- Where the breaks of two texts differ in free gaps only, they are alike from every place on. -/
theorem texts_of_lines {e : Enclosure} {l l' : Nat} {ts us : List Token} {last last' : Token}
    (h : List.Forall₂ verbatim.token ts us) (hend : verbatim.ending last last')
    (hunique : (ts ++ [last]).Nodup)
    (hbreaks : List.zipWith or (e.free ts) (lines l ts) =
      List.zipWith or (e.free ts) (lines l' us)) :
    e.Abreast true ⟨l, ts ++ [last]⟩ ⟨l', us ++ [last']⟩ := by
  induction h generalizing e l l' with
  | nil =>
      refine ⟨.ended hend, fun _ t ht u _ hopen => ?_⟩
      obtain rfl : last = t := by simpa using ht
      exact absurd hend.2.2 (Bool.eq_false_iff.mp hopen)
  | @cons t u ts us htu _ ih =>
      obtain ⟨hmem, hunique⟩ := List.nodup_cons.mp hunique
      obtain ⟨hline, hbreaks⟩ := List.cons.inj hbreaks
      have hrest := ih (e := e.past t) hunique hbreaks
      refine ⟨.step htu hmem (hrest.keeps rfl) hrest.texts, fun _ t' ht u' hu _ hfree => ?_⟩
      obtain rfl : t = t' := by simpa using ht
      obtain rfl : u = u' := by simpa using hu
      simpa [hfree] using hline

theorem nodup_tokens (source file : String) : (TokenStream.ofText file source).toList.Nodup := by
  refine (TokenStream.ofText_pairwise file source).imp fun {t u} h hsame => ?_
  rw [hsame] at h
  exact Nat.lt_irrefl _ h.offset_lt

theorem legal_of_sameLiteral {ts us : List Token} (h : List.Forall₂ Token.SameLiteral ts us)
    (hlegal : ∀ t ∈ ts, t.isIllegal = false) : ∀ u ∈ us, u.isIllegal = false := by
  induction h with
  | nil => exact hlegal
  | cons htu _ ih =>
      rw [List.forall_mem_cons] at hlegal ⊢
      refine ⟨?_, ih hlegal.2⟩
      rw [Token.isIllegal, ← htu.1]
      exact hlegal.1

/-- Side by side from the beginning. -/
theorem abreast_of_rebroken (p : Program)
    (h : (TokenStream.ofText file source).Rebroken p (.ofText file source')) :
    (Enclosure.start p).Abreast false ⟨1, (TokenStream.ofText file source).toList⟩
      ⟨1, (TokenStream.ofText file source').toList⟩ := by
  have htokens : List.Forall₂ verbatim.token _ _ :=
    (TokenStream.forall₂_ofText h.words (fun _ => id) fun _ => id).imp fun _ _ h =>
      ⟨h.1, h.2.1, h.2.2.1, h.2.2.2.1.1⟩
  obtain ⟨hkind, hliteral, hfile, hlast⟩ := TokenStream.last_ofText source source' file
  have hend : verbatim.ending _ _ := ⟨⟨hkind, hliteral⟩, hfile, hlast⟩
  have hunique := nodup_tokens source file
  have hbreaks := h.breaks
  unfold TokenStream.toList at hunique ⊢
  generalize (TokenStream.ofText file source).body = ts at *
  generalize (TokenStream.ofText file source').body = us at *
  cases htokens with
  | nil => exact ⟨.ended hend, nofun⟩
  | cons htu hts =>
      obtain ⟨hmem, hunique⟩ := List.nodup_cons.mp hunique
      rw [← lines_tail 1, ← lines_tail 1] at hbreaks
      have hrest := texts_of_lines (e := (Enclosure.start p).past _) hts hend hunique hbreaks
      exact ⟨.step htu hmem (hrest.keeps rfl) hrest.texts, nofun⟩

/-- In a text without errors a line may be broken or not inside of delimiters, but for the bodies
of conditionals and loops there and the counter behind the end of a loop. -/
theorem sameUnplaced_of_rebroken (hok : (ofSource source file).isOk = true)
    (h : (TokenStream.ofText file source).Rebroken (ofSource source file).program
      (.ofText file source')) :
    (ofSource source file).SameUnplaced (ofSource source' file) := by
  have hs := TokenStream.closed_ofText file source
  have hs' := TokenStream.closed_ofText file source'
  have hclean := isError_of_isOk hok
  have hlegal := legal_of_noErrors hs hclean
  have hlegal' := legal_of_sameLiteral h.words hlegal
  have habreast := abreast_of_rebroken _ h
  have hlax : ∀ f ∈ (ofSource source file).faults, true = true ∧ f.isError = false :=
    fun f hf => ⟨rfl, hclean f hf⟩
  obtain ⟨l, hderives⟩ := derives_program hs hlax
  -- From the other text a program that is alike is derived.
  have hstands : Phrase.Stands [] (.statements .file (ofSource source file).program.statements) :=
    ⟨trivial, rfl⟩
  have hnone : Ahead [] [] := List.nil_sublist _
  obtain ⟨ss, ⟨l', rest⟩, _, halike, hderives', hw⟩ :=
    hderives.rebroken hstands hnone (by rw [List.append_nil]; exact habreast)
  obtain ⟨hfaults, -⟩ := parsed_of_lax hs hlegal hs.last_isEnd hderives
  cases hw.texts with
  | step htoken => exact absurd hs.last_isEnd (Bool.eq_false_iff.mp htoken.2.2.1)
  | ended hend =>
      obtain ⟨hfaults', hstatements'⟩ :=
        parsed_of_lax hs' hlegal' (isEnd_of_ending hend) hderives'
      have hsame : (ofSource source file).faults.map Fault.unplaced =
          (ofSource source' file).faults.map Fault.unplaced := by
        rw [ofSource, ofSource, hfaults, hfaults']
        exact Relabels.forall₂_map (habreast.texts.recounts .nil) fun _ _ =>
          fault_unplaced_of_verbatim
      refine ⟨congrArg Program.mk ?_, hsame, ?_⟩
      · rw [ofSource, ofSource, hstatements']
        exact relabels_verbatim.statements (statements_of_forall₂ halike)
      · have hwords := congrArg (List.map fun f => f.diagnostic.unplaced) hsame
        simp only [List.map_map, Function.comp_def, Fault.diagnostic_unplaced] at hwords
        rw [diagnostics, diagnostics, List.map_map, List.map_map]
        exact hwords

/-- A loop and a conditional inside of delimiters, with a name behind the loop that is not its
counter. -/
def bracketedSource : String :=
  "x = f(a,\n\x7bFor i = 1 To 3\ng(1\n,2)\nNext j\n\x7d, If b\nc\nElse\nd\nEndIf)\n"

/-- With other line breaks in front of the bodies, behind them and inside of the call. -/
def rebrokenSource : String :=
  "x = f(\na, \x7b\nFor i =\n1 To 3 g(1,\n2) Next j \x7d, If\nb c Else d\nEndIf\n)\n"

theorem sameUnplaced_bracketedSource :
    (ofSource bracketedSource "t.prw").isOk = true ∧
      (TokenStream.ofText "t.prw" bracketedSource).Rebroken
        (ofSource bracketedSource "t.prw").program (.ofText "t.prw" rebrokenSource) ∧
      (ofSource bracketedSource "t.prw").SameUnplaced (ofSource rebrokenSource "t.prw") := by
  have hok : (ofSource bracketedSource "t.prw").isOk = true := by decide +kernel
  have hbroken : (TokenStream.ofText "t.prw" bracketedSource).Rebroken
      (ofSource bracketedSource "t.prw").program (.ofText "t.prw" rebrokenSource) :=
    ⟨by decide +kernel, by decide +kernel⟩
  exact ⟨hok, hbroken, sameUnplaced_of_rebroken hok hbroken⟩

end Parsed

end Clipper
