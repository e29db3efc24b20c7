import Clipper.Proofs.Grammar.Climbing
import Clipper.Proofs.Rendering.Nodes

/-!
The words of a canonical text. Where two styles are compared it is enough that their texts are
twins; to read one text again it has to be known which tokens stand in it, and where its lines end.
So the pieces are followed once more, with the kind and the text of each token they make.
-/

namespace Clipper

/-- The kind of a token and its text. -/
abbrev Word := TokenKind × String

def Token.word (t : Token) : Word := (t.kind, t.literal)

/-- A word, or the end of a line with the empty lines behind it. -/
inductive Element
  | word (w : Word)
  | lineEnd

open Lexeme in
/-- The words of a text and the ends of its lines, with blanks between them. -/
inductive Worded : List Char → List Element → Prop
  | nil : Worded [] []
  | blanks (m : Nat) : Worded cs is → Worded (List.replicate m ' ' ++ cs) is
  | newlines (m : Nat) : Worded cs is →
      Worded (List.replicate (m + 1) '\n' ++ cs) (.lineEnd :: is)
  | token : k ≠ .illegal → Fronts k text cs → Worded cs is →
      Worded (text ++ cs) (.word (k, String.ofList text) :: is)

/-- The tokens are the words, from one line to another: a token begins on the line on which the one
before it ends, or on a later one if the line ends between them. -/
inductive Printed : Nat → List Element → List Token → Nat → Prop
  | nil : Printed l [] [] l
  | word : t.word = w → t.line = l → Printed t.endLine is ts l' →
      Printed l (.word w :: is) (t :: ts) l'
  | lineEnd : l < k → Printed k is ts l' → Printed l (.lineEnd :: is) ts l'

/-- What is printed in front of something, and that. -/
theorem Printed.split {l l' : Nat} {is js : List Element} {ts : List Token}
    (h : Printed l (is ++ js) ts l') :
    ∃ us vs k, ts = us ++ vs ∧ Printed l is us k ∧ Printed k js vs l' := by
  induction is generalizing l ts with
  | nil => exact ⟨[], ts, l, rfl, .nil, h⟩
  | cons i is ih =>
      cases h with
      | word hw hline h =>
          obtain ⟨us, vs, k, rfl, hus, hvs⟩ := ih h
          exact ⟨_ :: us, vs, k, rfl, .word hw hline hus, hvs⟩
      | lineEnd hlt h =>
          obtain ⟨us, vs, k, rfl, hus, hvs⟩ := ih h
          exact ⟨us, vs, k, rfl, .lineEnd hlt hus, hvs⟩

namespace TokenStream

variable {file : String} {c : Cursor}

theorem body_of_atEnd (h : c.AtEnd file) : (ofCursor file c).body = [] := by
  rw [ofCursor_of_scans (.done c) h]

theorem body_of_not_atEnd (h : ¬c.AtEnd file) :
    (ofCursor file c).body = (c.next file).1 :: (ofCursor file (c.next file).2).body := by
  obtain ⟨ts, d, hts, hend⟩ := exists_scans file (c.next file).2
  rw [ofCursor_of_scans hts hend, ofCursor_of_scans (.token h hts) hend]

end TokenStream

open TokenStream in
/-- The tokens of a text are its words. -/
theorem Worded.tokens {cs : List Char} {is : List Element} (h : Worded cs is) (file : String)
    (c : Cursor) (hc : c.ahead = cs) :
    (∀ t ∈ (ofCursor file c).body, t.isIllegal = false) ∧
      ∃ l, Printed c.place.line is (ofCursor file c).body l := by
  induction h generalizing c with
  | nil =>
      have hend : c.AtEnd file := by
        obtain ⟨p, fresh, _⟩ := c
        subst hc
        exact Cursor.atEnd_iff.mpr rfl
      rw [body_of_atEnd hend]
      exact ⟨by simp, _, .nil⟩
  | blanks m _ ih =>
      obtain ⟨p, fresh, _⟩ := c
      subst hc
      rw [ofCursor_congr (Cursor.next_of_skipTrivia (Cursor.skipTrivia_blanks _ _ _ _))]
      obtain ⟨hlegal, l, hl⟩ := ih ⟨p.past (List.replicate m ' '), fresh, _⟩ rfl
      rw [Twin.line_past_blanks] at hl
      exact ⟨hlegal, l, hl⟩
  | newlines m _ ih =>
      obtain ⟨p, fresh, _⟩ := c
      subst hc
      rw [ofCursor_congr (Cursor.next_of_skipTrivia (Cursor.skipTrivia_lines _ _ _ _))]
      obtain ⟨hlegal, l, hl⟩ := ih ⟨p.past (List.replicate (m + 1) '\n'), true, _⟩ rfl
      rw [Twin.line_past_lines] at hl
      exact ⟨hlegal, l, .lineEnd (by simp) hl⟩
  | @token k text cs is hk hfronts _ ih =>
      obtain ⟨hopen, hkind, hliteral, hline, hnext⟩ := Cursor.next_fronts file hfronts hc
      have hend : (c.next file).1.endLine = (c.place.past text).line := by
        rw [Token.endLine, hline, hliteral, String.toList_ofList, Place.past_line]
      obtain ⟨hlegal, l, hl⟩ := ih ⟨c.place.past text, false, cs⟩ rfl
      rw [body_of_not_atEnd hopen, hnext]
      refine ⟨List.forall_mem_cons.mpr ⟨by simpa [Token.isIllegal, hkind] using hk, hlegal⟩, l,
        .word ?_ hline (hend ▸ hl)⟩
      rw [Token.word, hkind, hliteral]

namespace Layout

/-! ### Pieces -/

/-- Pieces may stand so, and what they make has these elements. -/
def Stance.Permits (style : Style) : Stance → Nat → List Piece → List Element → Prop
  | behind, level, ps, is => Worded (written style level false ps) is ∧
      ∀ c ∈ (written style level false ps).head?, c ∈ Lexeme.shutters
  | within, level, ps, is => Worded (written style level false ps) is
  | free, level, ps, is => ∀ e, Worded (written style level e ps) is ∧
      ∀ c ∈ (written style level e ps).head?, c ≠ '='
  | fresh, level, ps, is => Worded (written style level true ps) is

/-- The pieces lead from one stance to another and make these elements. -/
def Tells (style : Style) (s t : Stance) (ps : List Piece) (is : List Element) : Prop :=
  ∀ level rest js, t.Permits style level rest js → s.Permits style level (ps ++ rest) (is ++ js)

variable {style : Style} {s t u : Stance} {ps qs : List Piece} {is js : List Element}

namespace Tells

theorem refl (s : Stance) : Tells style s s [] [] := fun _ _ _ h => h

theorem append (hp : Tells style s t ps is) (hq : Tells style t u qs js) :
    Tells style s u (ps ++ qs) (is ++ js) := fun level rest ks h => by
  rw [List.append_assoc, List.append_assoc]
  exact hp level _ _ (hq level rest ks h)

theorem fresh (h : Tells style .free t ps is) : Tells style .fresh t ps is :=
  fun level rest js hrest => (h level rest js hrest true).1

theorem within (h : Tells style .free t ps is) : Tells style .within t ps is :=
  fun level rest js hrest => (h level rest js hrest false).1

theorem inside (h : Tells style .behind t ps is) : Tells style .within t ps is :=
  fun level rest js hrest => (h level rest js hrest).1

/-- A text is made of the pieces alone. -/
theorem worded (h : Tells style .free .behind ps is) :
    Worded (render style ps).toList is := by
  have hall := (h 0 [] [] ⟨.nil, by simp⟩ true).1
  rwa [List.append_nil, List.append_nil] at hall

end Tells

open Lexeme Canonical

variable {level : Nat} {e : Bool} {k : TokenKind} {x : String} {p : Piece} {rest : List Piece}

theorem worded_token (hx : Spelled style p x) (hk : k ≠ .illegal)
    (hfronts : Fronts k x.toList (written style level false rest))
    (h : Worded (written style level false rest) js) :
    Worded (written style level e (p :: rest)) (.word (k, x) :: js) := by
  rw [written_spelled hx]
  have htoken := Worded.token hk hfronts h
  rw [String.ofList_toList] at htoken
  exact .blanks _ htoken

theorem head_token {q : Char → Prop} (hx : Spelled style p x) (hspace : q ' ')
    (hq : ∀ c ∈ x.toList.head?, q c) : ∀ c ∈ (written style level e (p :: rest)).head?, q c :=
  (heads_token hx hx hspace hq hq).1

/-- A word or a number. -/
theorem tells_word (hx : Spelled style p x) (h : Spells k x.toList) (hsign : k.isSign = false) :
    Tells style .free .behind [p] [.word (k, x)] := by
  intro level rest js hrest e
  exact ⟨worded_token hx (kind_ne_illegal_of_spells h) (fronts_of_spells h hsign hrest.2) hrest.1,
    head_token hx (by decide) (head_ne_equal h hsign)⟩

theorem ne_empty_of_spells (h : Spells k x.toList) : x ≠ "" := by
  rintro rfl
  obtain ⟨_, _, hnil, -⟩ := h.reads
  cases hnil

theorem tells_text (h : Spells k x.toList) (hsign : k.isSign = false) :
    Tells style .free .behind [.text x] [.word (k, x)] :=
  tells_word (spelled_text (ne_empty_of_spells h)) h hsign

/-- The word that a reserved word makes. -/
def reserved (style : Style) (k : Keyword) : Word :=
  (.keyword k, keywordText style.keywordCase k)

theorem tells_keyword (k : Keyword) :
    Tells style .free .behind [.keyword k] [.word (reserved style k)] := by
  obtain ⟨hs, hsame, hne⟩ := keywordText_spelling style.keywordCase k
  exact tells_word ⟨hne, fun _ => rfl⟩ (.keyword hs hsame) rfl

/-- The pieces of a string are one word. -/
theorem tells_string {d : Char} {body : String} (hd : isDelimiter d = true)
    (hbody : Body d body.toList) :
    Tells style .free .behind [.text d.toString, .text body, .text d.toString]
      [.word (.string, d.toString ++ body ++ d.toString)] := by
  intro level rest js h e
  have hall : Tells style _ _ _ _ := tells_text (spells_string hd hbody) rfl
  have htext := hall level rest js h e
  simp only [List.cons_append, List.nil_append, written_string] at htext ⊢
  exact htext

/-! ### Blanks -/

theorem worded_space (h : Worded (written style level false rest) js) :
    Worded (written style level false (space :: rest)) js := by
  rw [written_space]
  exact .blanks 1 h

theorem tells_space : Tells style .behind .free [space] [] := by
  intro level rest js h
  refine ⟨worded_space (h false).1, ?_⟩
  rw [List.singleton_append, written_space]
  simp [shutters]

/-! ### Line ends -/

theorem tells_newline : Tells style .behind .fresh [.newline] [.lineEnd] := by
  intro level rest js h
  rw [List.singleton_append, List.singleton_append]
  refine ⟨?_, by simp [shutters]⟩
  rw [written_newline]
  exact .newlines 0 h

theorem tells_endLine : Tells style .behind .fresh [.endLine] [.lineEnd] := by
  intro level rest js h
  rw [List.singleton_append, List.singleton_append]
  refine ⟨?_, by simp [shutters]⟩
  rw [written_endLine]
  exact .newlines 0 h

/-- A gap makes no line end of its own. -/
theorem tells_gap : Tells style .behind .fresh [.endLine, .gap] [.lineEnd] := by
  intro level rest js h
  rw [List.cons_append, List.singleton_append, List.singleton_append]
  refine ⟨?_, by simp [shutters]⟩
  rw [written_endLine, written_gap]
  exact .newlines style.blankLines h

theorem tells_indented (h : Tells style .fresh .fresh ps is) :
    Tells style .fresh .fresh (.indent :: ps ++ [.dedent]) is := by
  intro level rest js hrest
  rw [List.cons_append, List.cons_append, List.append_assoc, List.singleton_append]
  have hinner : Worded (written style (level + 1) true (ps ++ .dedent :: rest)) (is ++ js) := by
    refine h (level + 1) (.dedent :: rest) js ?_
    show Worded (written style (level + 1) true (.dedent :: rest)) js
    rw [written_dedent]
    exact hrest
  show Worded (written style level true (.indent :: (ps ++ .dedent :: rest))) (is ++ js)
  rw [written_indent]
  exact hinner

/-! ### Signs -/

/-- The word that a mark makes. -/
def marked (p : Punctuation) : Word := (.punctuation p, p.canonical)

theorem worded_mark {p : Punctuation} (h : Worded (written style level false rest) js)
    (hcolon : isColon p = true → ∀ d ∈ (written style level false rest).head?, d ≠ ':' ∧ d ≠ '=') :
    Worded (written style level e (mark p :: rest)) (.word (marked p) :: js) :=
  worded_token (spelled_text (canonical_ne p)) (by simp) (fronts_mark hcolon) h

theorem head_mark {p : Punctuation} {q : Char → Prop} (hspace : q ' ')
    (hq : ∀ c ∈ p.canonical.toList.head?, q c) :
    ∀ c ∈ (written style level e (mark p :: rest)).head?, q c :=
  head_token (spelled_text (canonical_ne p)) hspace hq

theorem tells_loose : Tells style .within .behind [] [] := fun _ _ _ h => h.1

theorem tells_open {p : Punctuation} (hp : isColon p = false) :
    Tells style .free .within [mark p] [.word (marked p)] := by
  intro level rest js h e
  refine ⟨worded_mark h (by simp [hp]), ?_⟩
  exact head_mark (by decide) fun c hc => (canonical_head hc).2.2.1

theorem tells_mark {p : Punctuation} (hp : isColon p = false) (hbrace : p ≠ .openBrace) :
    Tells style .behind .within [mark p] [.word (marked p)] := by
  intro level rest js h
  refine ⟨worded_mark h (by simp [hp]), ?_⟩
  exact head_mark (by decide) fun c hc => (canonical_head hc).2.2.2.1 hbrace

theorem tells_closing {p : Punctuation} (h : closes p = true) :
    Tells style .behind .behind [mark p] [.word (marked p)] := by
  have hp : isColon p = false ∧ p ≠ .openBrace := by
    revert h
    cases p <;> decide
  exact (tells_mark hp.1 hp.2).append tells_loose

theorem tells_comma : Tells style .behind .free [mark .comma, space] [.word (marked .comma)] :=
  (tells_mark rfl (by decide)).append tells_space.inside

/-- A sign of a member, with the member's name. -/
theorem worded_member {p : Punctuation} {m : String} (hm : Spells .identifier m.toList)
    (h : Stance.behind.Permits style level rest js) :
    Worded (written style level e (mark p :: .text m :: rest))
      (.word (marked p) :: .word (.identifier, m) :: js) := by
  refine worded_mark (tells_text hm rfl level rest js h false).1 fun _ => ?_
  exact head_token (spelled_text (ne_empty_of_spells hm)) (by decide) fun c hc =>
    ⟨head_ne_mark hm rfl (by decide) (by decide) c hc, head_ne_equal hm rfl c hc⟩

theorem tells_member {m : String} (hm : Spells .identifier m.toList) :
    Tells style .behind .behind [mark .colon, .text m]
      [.word (marked .colon), .word (.identifier, m)] := by
  intro level rest js h
  refine ⟨worded_member hm h, ?_⟩
  exact head_mark (by decide) fun c hc => (canonical_head hc).2.2.2.1 (by decide)

theorem tells_ownMember {m : String} (hm : Spells .identifier m.toList) :
    Tells style .free .behind [mark .colonColon, .text m]
      [.word (marked .colonColon), .word (.identifier, m)] := by
  intro level rest js h e
  refine ⟨worded_member hm h, ?_⟩
  exact head_mark (by decide) fun c hc => (canonical_head hc).2.2.1

/-! ### Operators -/

/-- The word that an operator makes. -/
def operated (style : Style) (o : Operator) : Word := (.operator o, operatorText style o)

theorem tells_operator (o : Operator) :
    Tells style .behind .free [space, operator o, space] [.word (operated style o)] := by
  intro level rest js h
  have hapart : Apart (written style level false (space :: rest)) := by simp [Apart]
  refine ⟨worded_space (worded_token (spelled_operator style o) (by simp)
    (fronts_of_apart (spells_operator style o) (operatorText_eq style o).2.1 hapart)
    (worded_space (h false).1)), ?_⟩
  simp [shutters]

theorem tells_unary (op : UnaryOp) :
    Tells style .within .free [operator op.operator] [.word (operated style op.operator)] := by
  intro level rest js h
  refine worded_token (spelled_operator style _) (by simp) ?_ (h false).1
  rw [operatorText_unary]
  exact fronts_unary op (h false).2

end Layout

end Clipper
