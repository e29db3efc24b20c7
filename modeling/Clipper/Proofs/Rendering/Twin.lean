import Clipper.Proofs.Lexing.Spelling
import Clipper.Proofs.Likeness.Program

/-!
Twin texts: two texts with the same tokens one behind the other, words in any case, and between
them blanks of any width and line ends of any number. The lexer finds the same in both.
-/

namespace Clipper

/-- A reserved word or an operator between dots, which may be written in any case. -/
def TokenKind.isCased : TokenKind → Bool
  | keyword _ => true
  | operator o => o.isDotted
  | _ => false

/-- Two spellings of one token of the kind. -/
def TokenKind.sameSpelling (k : TokenKind) (s t : String) : Bool :=
  if k.isCased then Text.sameWord s t else s == t

theorem TokenKind.sameSpelling_self (k : TokenKind) (s : String) : k.sameSpelling s s = true := by
  unfold sameSpelling
  split <;> simp

namespace Token

/-- The same token, but for its place and for the case of a word. -/
def SameUpToCase (t u : Token) : Prop :=
  t.kind = u.kind ∧ t.kind.sameSpelling t.literal u.literal = true

instance : DecidableRel SameUpToCase := fun t u =>
  inferInstanceAs (Decidable (t.kind = u.kind ∧ t.kind.sameSpelling t.literal u.literal = true))

end Token

namespace Lexeme

/-- A token of the kind stands at the front of a text, with nothing to be skipped before it. -/
structure Fronts (k : TokenKind) (text rest : List Char) : Prop where
  skip : ∀ p fresh, Trivia.skip .blank p fresh (text ++ rest) = ⟨p, fresh, text ++ rest⟩
  read : ∃ c cs, text = c :: cs ∧ Lexeme.read c (cs ++ rest) = ⟨k, cs.length + 1⟩

end Lexeme

namespace Cursor

variable {file : String} {c d : Cursor} {k : TokenKind} {text rest : List Char}

theorem skipTrivia_blanks (p : Place) (fresh : Bool) (m : Nat) (cs : List Char) :
    (Cursor.mk p fresh (List.replicate m ' ' ++ cs)).skipTrivia =
      (Cursor.mk (p.past (List.replicate m ' ')) fresh cs).skipTrivia := by
  induction m generalizing p with
  | zero => rfl
  | succ m ih =>
      have hskip : (Cursor.mk p fresh (' ' :: (List.replicate m ' ' ++ cs))).skipTrivia =
          (Cursor.mk (p.step ' ') fresh (List.replicate m ' ' ++ cs)).skipTrivia := by
        rw [skipTrivia, Trivia.skip_single (by simp) (by simp) (by simp), if_pos (by decide)]
        simp [skipTrivia]
      rw [List.replicate_succ, List.cons_append, hskip, ih, Place.past_cons]

theorem skipTrivia_lines (p : Place) (fresh : Bool) (m : Nat) (cs : List Char) :
    (Cursor.mk p fresh (List.replicate (m + 1) '\n' ++ cs)).skipTrivia =
      (Cursor.mk (p.past (List.replicate (m + 1) '\n')) true cs).skipTrivia := by
  have hskip : ∀ (p : Place) (fresh : Bool) (cs : List Char),
      (Cursor.mk p fresh ('\n' :: cs)).skipTrivia = (Cursor.mk (p.step '\n') true cs).skipTrivia := by
    intro p fresh cs
    rw [skipTrivia, Trivia.skip_single (by simp) (by simp) (by simp), if_pos Text.isBlank_newline]
    simp [skipTrivia]
  induction m generalizing p fresh with
  | zero => exact hskip p fresh cs
  | succ m ih => rw [List.replicate_succ, List.cons_append, hskip, ih, Place.past_cons]

/-- The next token is the one at the front. -/
theorem next_fronts (file : String) (h : Lexeme.Fronts k text rest) (hc : c.ahead = text ++ rest) :
    ¬c.AtEnd file ∧ (c.next file).1.kind = k ∧ (c.next file).1.literal = String.ofList text ∧
      (c.next file).1.line = c.place.line ∧
      (c.next file).2 = ⟨c.place.past text, false, rest⟩ := by
  have hskip : c.skipTrivia = c := by
    rw [skipTrivia, hc, h.skip, ← hc]
  obtain ⟨first, others, rfl, hread⟩ := h.read
  rw [List.cons_append] at hc
  rw [atEnd_iff, hskip, hc]
  simp [next, hskip, hc, hread]

end Cursor

open Lexeme in
/-- The same tokens in both texts. -/
inductive Twin : List Char → List Char → Prop
  | nil : Twin [] []
  | blanks {cs ds : List Char} (m n : Nat) : Twin cs ds →
      Twin (List.replicate m ' ' ++ cs) (List.replicate n ' ' ++ ds)
  | newlines {cs ds : List Char} (m n : Nat) : Twin cs ds →
      Twin (List.replicate (m + 1) '\n' ++ cs) (List.replicate (n + 1) '\n' ++ ds)
  | token {k : TokenKind} {s t cs ds : List Char} : k ≠ .illegal → Fronts k s cs → Fronts k t ds →
      k.sameSpelling (String.ofList s) (String.ofList t) = true → Twin cs ds →
      Twin (s ++ cs) (t ++ ds)

namespace Twin

open Correspondence TokenStream

variable {file : String}

theorem line_past_blanks (p : Place) (m : Nat) : (p.past (List.replicate m ' ')).line = p.line := by
  rw [Place.past_line, List.count_replicate]
  rfl

theorem line_past_lines (p : Place) (m : Nat) :
    (p.past (List.replicate m '\n')).line = p.line + m := by
  rw [Place.past_line, List.count_replicate, beq_self_eq_true, if_pos rfl]

/-- The tokens of twin texts are the same. They begin on the same lines, in relation to the lines
`i` and `j` on which the tokens before the cursors end. -/
theorem sameTokens {cs ds : List Char} (h : Twin cs ds) {c d : Cursor} {i j : Nat}
    (hc : c.ahead = cs) (hd : d.ahead = ds) (hi : i ≤ c.place.line) (hj : j ≤ d.place.line)
    (hline : c.place.line = i ↔ d.place.line = j) :
    List.Forall₂ Token.SameUpToCase (ofCursor file c).toList (ofCursor file d).toList ∧
      lines i (ofCursor file c).toList = lines j (ofCursor file d).toList ∧
      ∀ t ∈ (ofCursor file c).toList, t.isIllegal = false := by
  induction h generalizing c d i j with
  | nil =>
      obtain ⟨p, fresh, _⟩ := c
      obtain ⟨p', fresh', _⟩ := d
      subst hc hd
      have hend : ∀ p fresh, (Cursor.mk p fresh []).AtEnd file := fun p fresh =>
        Cursor.atEnd_iff.mpr rfl
      have hnext : ∀ p fresh, ((Cursor.mk p fresh []).next file).1 =
          ⟨.endOfInput, "", ⟨p.offset, p.offset⟩, p.line, p.column, file⟩ := fun p fresh => rfl
      rw [toList_of_atEnd (hend _ _), toList_of_atEnd (hend _ _), hnext, hnext]
      refine ⟨.cons ⟨rfl, rfl⟩ .nil, ?_, by simp [Token.isIllegal]⟩
      have hline : (p.line == i) = (p'.line == j) := by
        rw [Bool.eq_iff_iff, beq_iff_eq, beq_iff_eq]
        exact hline
      simp [lines, hline]
  | blanks m n _ ih =>
      obtain ⟨p, fresh, _⟩ := c
      obtain ⟨p', fresh', _⟩ := d
      subst hc hd
      rw [ofCursor_congr (Cursor.next_of_skipTrivia (Cursor.skipTrivia_blanks _ _ _ _)),
        ofCursor_congr (d := Cursor.mk (p'.past _) _ _)
          (Cursor.next_of_skipTrivia (Cursor.skipTrivia_blanks _ _ _ _))]
      apply ih rfl rfl <;> simpa only [line_past_blanks]
  | newlines m n _ ih =>
      obtain ⟨p, fresh, _⟩ := c
      obtain ⟨p', fresh', _⟩ := d
      subst hc hd
      rw [ofCursor_congr (Cursor.next_of_skipTrivia (Cursor.skipTrivia_lines _ _ _ _)),
        ofCursor_congr (d := Cursor.mk (p'.past _) _ _)
          (Cursor.next_of_skipTrivia (Cursor.skipTrivia_lines _ _ _ _))]
      have hi : i ≤ p.line := hi
      have hj : j ≤ p'.line := hj
      -- Behind a line end no token stands on the line of the one before it.
      apply ih rfl rfl <;> simp only [line_past_lines] <;> omega
  | @token k s t cs ds hk hs ht hsame _ ih =>
      obtain ⟨hopen, hkind, hliteral, hplace, hnext⟩ := Cursor.next_fronts file hs hc
      obtain ⟨hopen', hkind', hliteral', hplace', hnext'⟩ := Cursor.next_fronts file ht hd
      rw [toList_of_not_atEnd hopen, toList_of_not_atEnd hopen', hnext, hnext']
      have hend : (c.next file).1.endLine = (c.place.past s).line := by
        rw [Token.endLine, hplace, hliteral, String.toList_ofList, Place.past_line]
      have hend' : (d.next file).1.endLine = (d.place.past t).line := by
        rw [Token.endLine, hplace', hliteral', String.toList_ofList, Place.past_line]
      obtain ⟨hwords, hlines, hlegal⟩ := ih (c := ⟨c.place.past s, false, cs⟩)
        (d := ⟨d.place.past t, false, ds⟩) (i := (c.next file).1.endLine)
        (j := (d.next file).1.endLine) rfl rfl (Nat.le_of_eq hend) (Nat.le_of_eq hend')
        (by simp [hend, hend'])
      refine ⟨.cons ⟨hkind.trans hkind'.symm, ?_⟩ hwords, ?_, ?_⟩
      · rwa [hkind, hliteral, hliteral']
      · have hfirst : ((c.next file).1.line == i) = ((d.next file).1.line == j) := by
          rw [hplace, hplace', Bool.eq_iff_iff, beq_iff_eq, beq_iff_eq]
          exact hline
        simp only [lines, hfirst, hlines]
      · rw [List.forall_mem_cons]
        exact ⟨by simpa [Token.isIllegal, hkind] using hk, hlegal⟩

end Twin

end Clipper
