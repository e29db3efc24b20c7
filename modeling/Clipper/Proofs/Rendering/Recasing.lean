import Clipper.Proofs.Likeness.Spacing
import Clipper.Proofs.Rendering.Twin

/-!
Texts that differ in the case of words. What is found wrong with the one is found wrong with the
other, in the same terms: only the tokens that a message quotes are in another case, and stand in
another place.
-/

namespace Clipper

namespace Text

theorem sameWord_append {s s' t t' : String} (h : sameWord s s' = true) (h' : sameWord t t' = true) :
    sameWord (s ++ t) (s' ++ t') = true := by
  rw [sameWord_iff] at h h' ⊢
  rw [folded, folded, String.toList_append, String.toList_append, List.map_append, List.map_append]
  exact congrArg₂ (· ++ ·) h h'

end Text

namespace Token

variable {t u : Token}

theorem SameUpToCase.literal (h : t.SameUpToCase u) : Text.sameWord t.literal u.literal = true := by
  have hsame := h.2
  unfold TokenKind.sameSpelling at hsame
  split at hsame
  · exact hsame
  · rw [beq_iff_eq.mp hsame]
    exact Text.sameWord_self _

theorem SameUpToCase.sameWord (h : t.SameUpToCase u) : t.SameWord u := by
  refine ⟨h.1, fun hcontent => ?_⟩
  have huncased : t.kind.isCased = false := by
    cases hk : t.kind <;> simp_all [TokenKind.hasContent, TokenKind.isCased]
  simpa [TokenKind.sameSpelling, huncased] using h.2

theorem SameUpToCase.describe (h : t.SameUpToCase u) :
    Text.sameWord t.describe u.describe = true := by
  have hend : t.isEnd = u.isEnd := by rw [Token.isEnd, Token.isEnd, h.1]
  unfold Token.describe
  rw [← hend]
  split
  · exact Text.sameWord_self _
  · exact Text.sameWord_append (Text.sameWord_append (Text.sameWord_self _) h.literal)
      (Text.sameWord_self _)

end Token

/-- The same finding at another place. The tokens that its message quotes may be in another case. -/
structure Diagnostic.SameUpToCase (d d' : Diagnostic) : Prop where
  message : Text.sameWord d.message d'.message = true
  file : d.file = d'.file
  severity : d.severity = d'.severity
  stage : d.stage = d'.stage
  code : d.code = d'.code
  notes : d.notes.length = d'.notes.length
  hints : d.hints = d'.hints

namespace Correspondence

/-- The same words in two texts, in any case. -/
def recasing : Correspondence where
  token t u := t.SameUpToCase u ∧ t.file = u.file ∧ t.isEnd = false
  ending t u := t.SameUpToCase u ∧ t.file = u.file ∧ t.isEnd = true
  guards _ := True
  beyond := []
  earlier := []
  earlier' := []
  kind_eq := fun h => h.1.1
  literal_eq := fun h => h.1.sameWord.2
  isEnd_token := fun h => h.2.2
  isEnd_ending := fun h => h.2.2
  ending_declares := fun h => .inl (by rw [Token.isEnd, ← h.1.1]; exact h.2.2)
  guards_close := fun h _ => .inl (by rw [Token.isEnd, ← h.1.1]; exact h.2.2)
  guards_append := fun _ => id
  guards_function := fun _ => trivial
  guards_class := fun _ => trivial

theorem same_of_recasing {t u : Token} (h : recasing.Meets t u) :
    t.SameUpToCase u ∧ t.file = u.file := h.elim (fun h => ⟨h.1, h.2.1⟩) fun h => ⟨h.1, h.2.1⟩

/-- A message is made of fixed words and of tokens. -/
theorem diagnostic_of_recasing {f f' : Fault} (h : recasing.Faults f f') :
    f.diagnostic.SameUpToCase f'.diagnostic := by
  have hself : ∀ s : String, Text.sameWord s s = true := Text.sameWord_self
  cases h with
  | expected what h =>
      obtain ⟨h, hfile⟩ := same_of_recasing h
      exact ⟨Text.sameWord_append (hself _) h.describe, hfile, rfl, rfl, rfl, rfl, rfl⟩
  | unclosed closer _ h =>
      obtain ⟨h, hfile⟩ := same_of_recasing h
      exact ⟨Text.sameWord_append (hself _) h.describe, hfile, rfl, rfl, rfl, rfl, rfl⟩
  | notAStatement h =>
      obtain ⟨h, hfile⟩ := same_of_recasing h
      exact ⟨Text.sameWord_append h.describe (hself _), hfile, rfl, rfl, rfl, rfl, rfl⟩
  | notAnExpression h | lineGoesOn h | notAssignable h =>
      obtain ⟨h, hfile⟩ := same_of_recasing h
      exact ⟨Text.sameWord_append (hself _) h.describe, hfile, rfl, rfl, rfl, rfl, rfl⟩
  | tooDeep h =>
      obtain ⟨-, hfile⟩ := same_of_recasing h
      exact ⟨hself _, hfile, rfl, rfl, rfl, rfl, rfl⟩
  | otherCounter h _ h' =>
      have hfound := Text.sameWord_append (hself "'Next ") h.1.literal
      have hcounter := Text.sameWord_append
        (Text.sameWord_append hfound (hself "' does not match the loop counter '")) h'.1.literal
      exact ⟨Text.sameWord_append hcounter (hself "'"), h.2.1, rfl, rfl, rfl, rfl, rfl⟩
  | integerTooLarge h =>
      have hmessage := Text.sameWord_append (hself "integer literal ") h.1.describe
      exact ⟨Text.sameWord_append hmessage (hself _), h.2.1, rfl, rfl, rfl, rfl, rfl⟩
  | malformedNumber h =>
      exact ⟨Text.sameWord_append (hself _) h.1.describe, h.2.1, rfl, rfl, rfl, rfl, rfl⟩

end Correspondence

end Clipper
