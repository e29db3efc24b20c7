import Clipper.Canonical
import Clipper.Proofs.Rendering.Pieces

/-!
The signs, blanks and line ends of the canonical form, each with the stances it leads between.
-/

namespace Clipper

namespace Layout

open Lexeme Canonical

variable {a b : Style} {t : Stance} {ps rest : List Piece} {level : Nat} {e : Bool}

/-! ### Blanks and line ends -/

theorem spelled_space (style : Style) : Spelled style space " " := spelled_text (by decide)

@[simp] theorem written_space (style : Style) :
    written style level false (space :: ps) = ' ' :: written style level false ps := by
  rw [written_spelled (spelled_space style)]
  simp

theorem twins_space (h : Twins a b level false ps) : Twins a b level false (space :: ps) := by
  unfold Twins
  rw [written_space, written_space]
  exact .blanks 1 1 h

theorem moves_space : Moves a b .behind .free [space] := by
  intro level rest h
  refine ⟨twins_space (h false).1, ?_⟩
  rw [List.singleton_append, written_space, written_space]
  simp [Heads, shutters]

theorem moves_newline : Moves a b .behind .fresh [.newline] := by
  intro level rest h
  rw [List.singleton_append]
  refine ⟨?_, by simp [Heads, shutters]⟩
  unfold Twins
  rw [written_newline, written_newline]
  exact .newlines 0 0 h

theorem moves_endLine : Moves a b .behind .fresh [.endLine] := by
  intro level rest h
  rw [List.singleton_append]
  refine ⟨?_, by simp [Heads, shutters]⟩
  unfold Twins
  rw [written_endLine, written_endLine]
  exact .newlines 0 0 h

/-- A gap may be empty, but not the line ends it makes together with the end of its line. -/
theorem moves_gap : Moves a b .behind .fresh [.endLine, .gap] := by
  intro level rest h
  rw [List.cons_append, List.singleton_append]
  refine ⟨?_, by simp [Heads, shutters]⟩
  unfold Twins
  rw [written_endLine, written_endLine, written_gap, written_gap]
  exact .newlines a.blankLines b.blankLines h

theorem moves_indented (h : Moves a b .fresh .fresh ps) :
    Moves a b .fresh .fresh (.indent :: ps ++ [.dedent]) := by
  intro level rest hrest
  rw [List.cons_append, List.cons_append, List.append_assoc, List.singleton_append]
  have hinner : Twins a b (level + 1) true (ps ++ .dedent :: rest) := by
    refine h (level + 1) (.dedent :: rest) ?_
    show Twins a b (level + 1) true (.dedent :: rest)
    unfold Twins
    rw [written_dedent, written_dedent]
    exact hrest
  show Twins a b level true (.indent :: (ps ++ .dedent :: rest))
  unfold Twins
  rw [written_indent, written_indent]
  exact hinner

/-! ### Punctuation -/

def isColon (p : Punctuation) : Bool := p == .colon || p == .colonColon

/-- Only the colons begin a longer sign, and no mark begins with a sign of another sort. -/
theorem canonical_head {p : Punctuation} {c : Char} (h : c ∈ p.canonical.toList.head?) :
    c ≠ '#' ∧ c ≠ '/' ∧ c ≠ '=' ∧ (p ≠ .openBrace → c ∈ shutters) ∧
      ∀ d, (isColon p = true → d ≠ ':' ∧ d ≠ '=') → glues c d = false := by
  have hall : ∀ p ∈ Punctuation.all, (p.canonical.toList.head?.all fun c =>
      c != '#' && c != '/' && c != '=' && (p == .openBrace || shutters.contains c) &&
        symbols.all fun s => s.1.head? != some c ||
          s.1.tail.all fun d => isColon p && (d == ':' || d == '=')) = true := by
    decide
  have hc := hall p p.mem_all
  rw [Option.mem_def.mp h] at hc
  simp only [Option.all_some, Bool.and_eq_true, bne_iff_ne, List.all_eq_true, Bool.or_eq_true,
    beq_iff_eq, List.contains_iff_mem] at hc
  obtain ⟨⟨⟨⟨hhash, hslash⟩, hequal⟩, hshut⟩, hlonger⟩ := hc
  refine ⟨hhash, hslash, hequal, hshut.resolve_left, fun d hd => not_glues fun s hs hhead hmem => ?_⟩
  obtain ⟨hp, hsign⟩ := (hlonger s hs).resolve_left (not_not_intro hhead) d hmem
  exact hsign.elim (hd hp).1 (hd hp).2

theorem canonical_ne (p : Punctuation) : p.canonical ≠ "" := by
  cases p <;> decide

theorem fronts_mark {p : Punctuation} {cs : List Char}
    (h : isColon p = true → ∀ d ∈ cs.head?, d ≠ ':' ∧ d ≠ '=') :
    Fronts (.punctuation p) p.canonical.toList cs := by
  refine fronts_symbol (s := (p.canonical.toList, .punctuation p)) (punctuation_spelling p) ?_ ?_ ?_
  · exact fun hc => (canonical_head hc).1 rfl
  · exact fun c hc d hd => (canonical_head hc).2.2.2.2 d fun hp => h hp d hd
  · exact fun hc => absurd rfl (canonical_head hc).2.1

theorem twins_mark {p : Punctuation} (h : Twins a b level false rest)
    (hcolon : isColon p = true → Heads (fun d => d ≠ ':' ∧ d ≠ '=') (written a level false rest)
      (written b level false rest)) :
    Twins a b level e (mark p :: rest) :=
  twins_token (spelled_text (canonical_ne p)) (spelled_text (canonical_ne p)) (by simp)
    (TokenKind.sameSpelling_self _ _) (fronts_mark fun hp => (hcolon hp).1)
    (fronts_mark fun hp => (hcolon hp).2) h

theorem heads_mark {p : Punctuation} {q : Char → Prop} (hspace : q ' ')
    (hq : ∀ c ∈ p.canonical.toList.head?, q c) :
    Heads q (written a level e (mark p :: rest)) (written b level e (mark p :: rest)) :=
  heads_token (spelled_text (canonical_ne p)) (spelled_text (canonical_ne p)) hspace hq hq

/-- Where something may stand behind a word, something may stand behind an opening bracket. -/
theorem moves_loose : Moves a b .within .behind [] := fun _ _ h => h.1

/-- A bracket at the front of an expression. -/
theorem moves_open {p : Punctuation} (hp : isColon p = false) :
    Moves a b .free .within [mark p] := by
  intro level rest h e
  refine ⟨twins_mark h (by simp [hp]), ?_⟩
  exact heads_mark (by decide) fun c hc => (canonical_head hc).2.2.1

/-- A bracket or a comma behind something. -/
theorem moves_mark {p : Punctuation} (hp : isColon p = false) (hbrace : p ≠ .openBrace) :
    Moves a b .behind .within [mark p] := by
  intro level rest h
  refine ⟨twins_mark h (by simp [hp]), ?_⟩
  exact heads_mark (by decide) fun c hc => (canonical_head hc).2.2.2.1 hbrace

theorem moves_close {p : Punctuation} (hp : isColon p = false) (hbrace : p ≠ .openBrace) :
    Moves a b .behind .behind [mark p] := (moves_mark hp hbrace).append moves_loose

/-- A sign of a member, with the member's name. -/
theorem twins_member {p : Punctuation} {m : String} (hm : Spells .identifier m.toList)
    (h : Stance.behind.Allows a b level rest) :
    Twins a b level e (mark p :: .text m :: rest) := by
  have hne : m ≠ "" := by
    rintro rfl
    obtain ⟨_, _, hnil, -⟩ := hm.reads
    cases hnil
  refine twins_mark (moves_text hm rfl level rest h false).1 fun _ => ?_
  have hhead : ∀ c ∈ m.toList.head?, c ≠ ':' ∧ c ≠ '=' := fun c hc =>
    ⟨head_ne_mark hm rfl (by decide) (by decide) c hc, head_ne_equal hm rfl c hc⟩
  exact heads_token (spelled_text hne) (spelled_text hne) (by decide) hhead hhead

theorem moves_member {m : String} (hm : Spells .identifier m.toList) :
    Moves a b .behind .behind [mark .colon, .text m] := by
  intro level rest h
  refine ⟨twins_member hm h, ?_⟩
  exact heads_mark (by decide) fun c hc => (canonical_head hc).2.2.2.1 (by decide)

theorem moves_ownMember {m : String} (hm : Spells .identifier m.toList) :
    Moves a b .free .behind [mark .colonColon, .text m] := by
  intro level rest h e
  refine ⟨twins_member hm h, ?_⟩
  exact heads_mark (by decide) fun c hc => (canonical_head hc).2.2.1

/-! ### Operators -/

theorem fronts_of_apart {k : TokenKind} {text cs : List Char} (h : Spells k text)
    (hhash : text.head? ≠ some '#') (hcs : Apart cs) : Fronts k text cs := by
  obtain ⟨c, ds, rfl, hbegins, hread⟩ := h.reads
  refine ⟨fun p fresh => ?_, c, ds, rfl, hread cs hcs⟩
  rw [List.cons_append]
  refine Trivia.skip_begins hbegins (fun _ => ?_) hcs.not_comment
  rintro rfl
  exact hhash rfl

/-- How a style spells an operator. -/
def operatorText (style : Style) (o : Operator) : String :=
  if o.isDotted then style.keywordCase.applyWord o.canonical else o.canonical

theorem operatorText_eq (style : Style) (o : Operator) :
    operatorText style o ≠ "" ∧ (operatorText style o).toList.head? ≠ some '#' ∧
      o.canonical ∈ o.spellings ∧ Text.sameWord o.canonical (operatorText style o) = true ∧
      (o.isDotted = false → operatorText style o = o.canonical) := by
  have hall : ∀ o ∈ Operator.all, ∀ c ∈ [KeywordCase.upper, .lower, .pascal],
      let text := if o.isDotted then c.applyWord o.canonical else o.canonical
      text ≠ "" ∧ text.toList.head? ≠ some '#' ∧ o.canonical ∈ o.spellings ∧
        Text.sameWord o.canonical text = true ∧ (o.isDotted = false → text = o.canonical) := by
    decide
  exact hall o o.mem_all style.keywordCase (by cases style.keywordCase <;> simp)

theorem spelled_operator (style : Style) (o : Operator) :
    Spelled style (operator o) (operatorText style o) := by
  refine ⟨(operatorText_eq style o).1, fun sheet => ?_⟩
  cases h : o.isDotted <;> simp [operator, operatorText, h, put]

theorem spells_operator (style : Style) (o : Operator) :
    Spells (.operator o) (operatorText style o).toList :=
  .operator (operatorText_eq style o).2.2.1 (operatorText_eq style o).2.2.2.1

theorem sameSpelling_operator (a b : Style) (o : Operator) :
    (TokenKind.operator o).sameSpelling (operatorText a o) (operatorText b o) = true := by
  obtain ⟨-, -, -, ha, hplain⟩ := operatorText_eq a o
  obtain ⟨-, -, -, hb, hplain'⟩ := operatorText_eq b o
  cases h : o.isDotted with
  | false => simp [TokenKind.sameSpelling, TokenKind.isCased, h, hplain h, hplain' h]
  | true =>
      simp only [TokenKind.sameSpelling, TokenKind.isCased, h, if_true]
      exact Text.sameWord_trans (Text.sameWord_comm _ _ ▸ ha) hb

/-- An operator between two operands. -/
theorem moves_operator (o : Operator) : Moves a b .behind .free [space, operator o, space] := by
  intro level rest h
  have hinner : Twins a b level false (operator o :: space :: rest) := by
    have hapart : ∀ style : Style, Apart (written style level false (space :: rest)) := by
      intro style
      simp [Apart]
    exact twins_token (spelled_operator a o) (spelled_operator b o) (by simp)
      (sameSpelling_operator a b o)
      (fronts_of_apart (spells_operator a o) (operatorText_eq a o).2.1 (hapart a))
      (fronts_of_apart (spells_operator b o) (operatorText_eq b o).2.1 (hapart b))
      (twins_space (h false).1)
  refine ⟨twins_space hinner, ?_⟩
  simp [Heads, shutters]

/-- A sign in front of an operand makes no longer sign unless an equals sign follows it. -/
theorem fronts_unary (op : UnaryOp) {cs : List Char} (hcs : ∀ d ∈ cs.head?, d ≠ '=') :
    Fronts (.operator op.operator) op.operator.canonical.toList cs := by
  have hsymbol : (op.operator.canonical.toList, .operator op.operator) ∈ symbols := by
    cases op <;> decide
  have hhead : op.operator.canonical.toList.head?.all (fun c => c != '#' && c != '/' &&
      symbols.all fun s => s.1.head? != some c || s.1.tail.all (· == '=')) = true := by
    cases op <;> decide
  refine fronts_symbol hsymbol ?_ ?_ ?_
  · intro hc
    simp [hc] at hhead
  · refine fun c hc d hd => not_glues fun s hs hc' hmem => hcs d hd ?_
    have hc : op.operator.canonical.toList.head? = some c := hc
    rw [hc] at hhead
    simp only [Option.all_some, Bool.and_eq_true, List.all_eq_true, Bool.or_eq_true, bne_iff_ne,
      beq_iff_eq] at hhead
    exact (hhead.2 s hs).resolve_left (not_not_intro hc') d hmem
  · intro hc
    simp [hc] at hhead

theorem operatorText_unary (style : Style) (op : UnaryOp) :
    operatorText style op.operator = op.operator.canonical :=
  (operatorText_eq style op.operator).2.2.2.2 (by cases op <;> decide)

/-- An operator in front of its operand, with no space behind it. -/
theorem moves_unary (op : UnaryOp) : Moves a b .within .free [operator op.operator] := by
  intro level rest h
  show Twins a b level false (operator op.operator :: rest)
  refine twins_token (spelled_operator a _) (spelled_operator b _) (by simp)
    (sameSpelling_operator a b _) ?_ ?_ (h false).1
  · rw [operatorText_unary]
    exact fronts_unary op (h false).2.1
  · rw [operatorText_unary]
    exact fronts_unary op (h false).2.2

end Layout

end Clipper
