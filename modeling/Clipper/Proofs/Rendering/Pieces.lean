import Clipper.Layout
import Clipper.Proofs.Rendering.Fronts

/-!
Pieces in two styles. What the two styles make of the same pieces are twin texts, wherever the
pieces stand: a stance says what there must be in front of a text for it to go on so.
-/

namespace Clipper

namespace Layout

variable {style : Style} {level : Nat} {lineEmpty : Bool} {p : Piece} {ps rest : List Piece}

/-- The text of some pieces on a line that is indented so far. -/
def written (style : Style) (level : Nat) (lineEmpty : Bool) (ps : List Piece) : List Char :=
  (ps.foldl (put style) ⟨"", level, lineEmpty⟩).written.toList

theorem put_eq (style : Style) (s : Sheet) (p : Piece) :
    (put style s p).written = s.written ++ (put style { s with written := "" } p).written ∧
      (put style s p).level = (put style { s with written := "" } p).level ∧
      (put style s p).lineEmpty = (put style { s with written := "" } p).lineEmpty := by
  have hwrite : ∀ t, (s.write style.indent t).written =
      s.written ++ ({ s with written := "" }.write style.indent t : Sheet).written ∧
      (s.write style.indent t).level = ({ s with written := "" }.write style.indent t : Sheet).level ∧
      (s.write style.indent t).lineEmpty =
        ({ s with written := "" }.write style.indent t : Sheet).lineEmpty := by
    intro t
    unfold Sheet.write
    split
    · simp
    · cases s.lineEmpty <;> simp [String.append_assoc]
  cases p with
  | text t => exact hwrite t
  | keyword k => exact hwrite _
  | word t => exact hwrite _
  | newline => simp [put, Sheet.newlines]
  | endLine => cases h : s.lineEmpty <;> simp [put, Sheet.newlines, h]
  | gap => simp [put, Sheet.newlines]
  | indent => simp [put]
  | dedent => simp [put]

/-- Pieces do not depend on what stands on the sheet. -/
theorem foldl_put (style : Style) (s : Sheet) (ps : List Piece) :
    (ps.foldl (put style) s).written.toList =
      s.written.toList ++ written style s.level s.lineEmpty ps := by
  induction ps generalizing s with
  | nil => simp [written]
  | cons p ps ih =>
      obtain ⟨hwritten, hlevel, hempty⟩ := put_eq style s p
      have hblank : written style s.level s.lineEmpty (p :: ps) = _ :=
        ih (put style ⟨"", s.level, s.lineEmpty⟩ p)
      rw [List.foldl_cons, ih, hblank, hwritten, hlevel, hempty, String.toList_append,
        List.append_assoc]

theorem written_cons (style : Style) (level : Nat) (lineEmpty : Bool) (p : Piece)
    (ps : List Piece) :
    written style level lineEmpty (p :: ps) =
      (put style ⟨"", level, lineEmpty⟩ p).written.toList ++
        written style (put style ⟨"", level, lineEmpty⟩ p).level
          (put style ⟨"", level, lineEmpty⟩ p).lineEmpty ps := by
  rw [written, List.foldl_cons, foldl_put]

@[simp] theorem written_nil : written style level lineEmpty [] = [] := rfl

@[simp] theorem written_newline :
    written style level lineEmpty (.newline :: ps) = '\n' :: written style level true ps := by
  rw [written_cons]
  simp [put, Sheet.newlines]

@[simp] theorem written_endLine :
    written style level false (.endLine :: ps) = '\n' :: written style level true ps := by
  rw [written_cons]
  simp [put, Sheet.newlines]

@[simp] theorem written_gap :
    written style level true (.gap :: ps) =
      List.replicate style.blankLines '\n' ++ written style level true ps := by
  rw [written_cons]
  simp [put, Sheet.newlines]

@[simp] theorem written_indent :
    written style level lineEmpty (.indent :: ps) = written style (level + 1) lineEmpty ps := by
  rw [written_cons]
  simp [put]

@[simp] theorem written_dedent :
    written style level lineEmpty (.dedent :: ps) = written style (level - 1) lineEmpty ps := by
  rw [written_cons]
  simp [put]

/-- What a piece writes on a line. -/
def Spelled (style : Style) (p : Piece) (s : String) : Prop :=
  s ≠ "" ∧ ∀ sheet : Sheet, put style sheet p = sheet.write style.indent s

/-- A line is indented by the first text on it. -/
theorem written_spelled {s : String} (h : Spelled style p s) :
    written style level lineEmpty (p :: ps) =
      List.replicate (if lineEmpty then level * style.indent else 0) ' ' ++
        (s.toList ++ written style level false ps) := by
  rw [written_cons, h.2, Sheet.write, if_neg (by simpa using h.1)]
  cases lineEmpty <;> simp [spaces]

theorem written_empty :
    written style level lineEmpty (.text "" :: ps) = written style level lineEmpty ps := rfl

theorem spelled_text {s : String} (h : s ≠ "") : Spelled style (.text s) s := ⟨h, fun _ => rfl⟩

/-! ### Two styles -/

/-- Two styles have the same made of some pieces. -/
def Twins (a b : Style) (level : Nat) (lineEmpty : Bool) (ps : List Piece) : Prop :=
  Twin (written a level lineEmpty ps) (written b level lineEmpty ps)

/-- So both texts begin, unless they are empty. -/
def Heads (q : Char → Prop) (cs ds : List Char) : Prop :=
  (∀ c ∈ cs.head?, q c) ∧ ∀ d ∈ ds.head?, q d

/-- Where pieces stand. -/
inductive Stance
  /-- Behind a word, a number, a string or a closing bracket. -/
  | behind
  /-- Behind an opening bracket. -/
  | within
  /-- Where an expression or a statement may begin. -/
  | free
  /-- At the start of a line. -/
  | fresh

/-- Some pieces may stand so. -/
def Stance.Allows (a b : Style) : Stance → Nat → List Piece → Prop
  | behind, level, ps => Twins a b level false ps ∧
      Heads (· ∈ Lexeme.shutters) (written a level false ps) (written b level false ps)
  | within, level, ps => Twins a b level false ps
  | free, level, ps => ∀ e, Twins a b level e ps ∧
      Heads (· ≠ '=') (written a level e ps) (written b level e ps)
  | fresh, level, ps => Twins a b level true ps

/-- The pieces lead from one stance to another, whatever goes on from there. -/
def Moves (a b : Style) (s t : Stance) (ps : List Piece) : Prop :=
  ∀ level rest, t.Allows a b level rest → s.Allows a b level (ps ++ rest)

variable {a b : Style} {s t u : Stance} {ps qs : List Piece}

namespace Moves

theorem refl (s : Stance) : Moves a b s s [] := fun _ _ h => h

theorem append (hp : Moves a b s t ps) (hq : Moves a b t u qs) : Moves a b s u (ps ++ qs) :=
  fun level rest h => by
    rw [List.append_assoc]
    exact hp level _ (hq level rest h)

theorem cons {p : Piece} (hp : Moves a b s t [p]) (hq : Moves a b t u qs) :
    Moves a b s u (p :: qs) := hp.append hq

theorem fresh (h : Moves a b .free t ps) : Moves a b .fresh t ps :=
  fun level rest hrest => (h level rest hrest true).1

theorem within (h : Moves a b .free t ps) : Moves a b .within t ps :=
  fun level rest hrest => (h level rest hrest false).1

theorem inside (h : Moves a b .behind t ps) : Moves a b .within t ps :=
  fun level rest hrest => (h level rest hrest).1

end Moves

/-! ### Tokens -/

open Lexeme

variable {level : Nat} {e : Bool} {k : TokenKind} {x y : String} {p : Piece} {rest : List Piece}

/-- A token in front of what goes on. -/
theorem twins_token (hx : Spelled a p x) (hy : Spelled b p y) (hk : k ≠ .illegal)
    (hsame : k.sameSpelling x y = true) (hfronts : Fronts k x.toList (written a level false rest))
    (hfronts' : Fronts k y.toList (written b level false rest)) (h : Twins a b level false rest) :
    Twins a b level e (p :: rest) := by
  unfold Twins
  rw [written_spelled hx, written_spelled hy]
  refine .blanks _ _ (.token hk hfronts hfronts' ?_ h)
  rwa [String.ofList_toList, String.ofList_toList]

theorem heads_token {q : Char → Prop} (hx : Spelled a p x) (hy : Spelled b p y) (hspace : q ' ')
    (hqx : ∀ c ∈ x.toList.head?, q c) (hqy : ∀ c ∈ y.toList.head?, q c) :
    Heads q (written a level e (p :: rest)) (written b level e (p :: rest)) := by
  have hhead : ∀ (n : Nat) {s : String} (cs : List Char), s ≠ "" → (∀ c ∈ s.toList.head?, q c) →
      ∀ c ∈ (List.replicate n ' ' ++ (s.toList ++ cs)).head?, q c := by
    intro n s cs hs hq c hc
    cases n with
    | zero =>
        obtain ⟨d, ds, hd⟩ := List.exists_cons_of_ne_nil (mt String.toList_eq_nil_iff.mp hs)
        rw [hd] at hc hq
        exact hq c hc
    | succ n =>
        obtain rfl : ' ' = c := by simpa [List.replicate_succ] using hc
        exact hspace
  rw [written_spelled hx, written_spelled hy]
  exact ⟨hhead _ _ hx.1 hqx, hhead _ _ hy.1 hqy⟩

/-- A word, a number or a string does not begin with a sign. -/
theorem head_ne_mark {cs : List Char} (h : Spells k cs) (hsign : k.isSign = false) {d : Char}
    (hd : d ∈ marks) (hne : d ≠ '"' ∧ d ≠ '\x27' ∧ d ≠ '.') : ∀ c ∈ cs.head?, c ≠ d := by
  obtain ⟨c, ds, rfl, -, hread⟩ := h.reads
  intro c' hc
  obtain rfl : c = c' := Option.some.inj hc
  have hself := congrArg Lexeme.kind (hread [] (by simp [Apart]))
  exact ne_of_read hself (kind_ne_illegal_of_spells h) hsign hd hne

theorem head_ne_equal {cs : List Char} (h : Spells k cs) (hsign : k.isSign = false) :
    ∀ c ∈ cs.head?, c ≠ '=' := head_ne_mark h hsign (by decide) (by decide)

/-- A word or a number, in the spelling of each style. -/
theorem moves_word (hx : Spelled a p x) (hy : Spelled b p y) (hsx : Spells k x.toList)
    (hsy : Spells k y.toList) (hsign : k.isSign = false) (hsame : k.sameSpelling x y = true) :
    Moves a b .free .behind [p] := by
  intro level rest h e
  refine ⟨twins_token hx hy (kind_ne_illegal_of_spells hsx) hsame
    (fronts_of_spells hsx hsign h.2.1) (fronts_of_spells hsy hsign h.2.2) h.1, ?_⟩
  exact heads_token hx hy (by decide) (head_ne_equal hsx hsign) (head_ne_equal hsy hsign)

theorem moves_text (h : Spells k x.toList) (hsign : k.isSign = false) :
    Moves a b .free .behind [.text x] := by
  have hne : x ≠ "" := by
    rintro rfl
    obtain ⟨_, _, hnil, -⟩ := h.reads
    cases hnil
  exact moves_word (spelled_text hne) (spelled_text hne) h h hsign (k.sameSpelling_self x)

/-- The word of a reserved word that is written in each case. -/
def spelling : Keyword → String
  | .kwTrue => ".T."
  | .kwFalse => ".F."
  | k => k.canonical

theorem keywordText_spelling (c : KeywordCase) (k : Keyword) :
    spelling k ∈ k.spellings ∧ Text.sameWord (spelling k) (keywordText c k) = true ∧
      keywordText c k ≠ "" := by
  have hall : ∀ k ∈ Keyword.all, spelling k ∈ k.spellings ∧
      ∀ c ∈ [KeywordCase.upper, .lower, .pascal],
        Text.sameWord (spelling k) (keywordText c k) = true ∧ keywordText c k ≠ "" := by
    decide
  exact ⟨(hall k k.mem_all).1, (hall k k.mem_all).2 c (by cases c <;> simp)⟩

theorem moves_keyword (k : Keyword) : Moves a b .free .behind [.keyword k] := by
  obtain ⟨hs, hx, hne⟩ := keywordText_spelling a.keywordCase k
  obtain ⟨-, hy, hne'⟩ := keywordText_spelling b.keywordCase k
  refine moves_word (k := .keyword k) ⟨hne, fun _ => rfl⟩ ⟨hne', fun _ => rfl⟩ (.keyword hs hx)
    (.keyword hs hy) rfl ?_
  exact Text.sameWord_trans (Text.sameWord_comm _ _ ▸ hx) hy

/-- The pieces of a string are written as one text. -/
theorem written_string (style : Style) (level : Nat) (e : Bool) (d : Char) (body : String)
    (rest : List Piece) :
    written style level e (.text d.toString :: .text body :: .text d.toString :: rest) =
      written style level e (.text (d.toString ++ body ++ d.toString) :: rest) := by
  have hne : d.toString ≠ "" := by simp [Char.toString]
  have hall : d.toString ++ body ++ d.toString ≠ "" := by simp [Char.toString]
  rw [written_spelled (spelled_text hne), written_spelled (spelled_text hall)]
  by_cases hempty : body = ""
  · rw [hempty, written_empty, written_spelled (spelled_text hne)]
    simp
  · rw [written_spelled (spelled_text hempty), written_spelled (spelled_text hne)]
    simp

theorem spells_string {d : Char} {body : String} (hd : isDelimiter d = true)
    (hbody : Body d body.toList) :
    Spells .string (d.toString ++ body ++ d.toString).toList := by
  have hspells := Spells.string hd hbody
  simpa [Char.toString] using hspells

/-- The pieces of a string make one token. -/
theorem moves_string {d : Char} {body : String} (hd : isDelimiter d = true)
    (hbody : Body d body.toList) :
    Moves a b .free .behind [.text d.toString, .text body, .text d.toString] := by
  intro level rest h e
  have := moves_text (a := a) (b := b) (spells_string hd hbody) rfl level rest h e
  simp only [Twins, List.cons_append, List.nil_append, written_string] at this ⊢
  exact this

end Layout

end Clipper
