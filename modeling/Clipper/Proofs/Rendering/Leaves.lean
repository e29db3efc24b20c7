import Clipper.Number.Binary64
import Clipper.Proofs.Lexing.Spelling

/-!
The tokens that a tree keeps the text of: names, numbers, dates and strings. In every text they are
spelled so that they can be written again.
-/

namespace Clipper

/-- A name, a number or a date. A tree keeps the text of these as it is. -/
def TokenKind.isPlain : TokenKind → Bool
  | identifier | integer | float | date => true
  | _ => false

/-- The text ends with a backslash that takes no other character with it. -/
def Literal.isPending : List Char → Bool
  | [] => false
  | ['\\'] => true
  | '\\' :: _ :: cs => isPending cs
  | _ :: cs => isPending cs

namespace Lexeme

variable {c d : Char} {cs ds : List Char}

/-! ### Numbers -/

theorem take_digitRun (cs : List Char) : cs.take (digitRun cs) = cs.takeWhile Char.isDigit :=
  (List.prefix_iff_eq_take.mp (List.takeWhile_prefix Char.isDigit)).symm

theorem digits_takeWhile (h : beginsWithDigit cs = true) : Digits (cs.takeWhile Char.isDigit) := by
  refine ⟨?_, List.all_eq_true.mp List.all_takeWhile⟩
  cases cs with
  | nil => simp [beginsWithDigit] at h
  | cons c cs =>
      have hc : c.isDigit = true := by simpa [beginsWithDigit] using h
      simp [hc]

theorem take_slashGroup? {n : Nat} (h : slashGroup? cs = some n) :
    ∃ ds, Digits ds ∧ cs.take n = '/' :: ds := by
  unfold slashGroup? at h
  split at h
  · rename_i cs
    split at h
    · obtain rfl := Option.some.inj h
      rename_i hdigit
      exact ⟨_, digits_takeWhile hdigit, by rw [List.take_succ_cons, take_digitRun]⟩
    · cases h
  · cases h

/-- Digits, with what a number takes behind them. -/
theorem spells_numberTail (hds : Digits ds) (cs : List Char) :
    Spells (numberTail cs).kind (ds ++ cs.take (numberTail cs).size) := by
  have hinteger : Spells .integer (ds ++ cs.take 0) := by
    rw [List.take_zero, List.append_nil]
    exact .integer hds
  fun_cases numberTail cs with
  | case1 _ n hn m hm =>
      obtain ⟨es, hes, hmonth⟩ := take_slashGroup? hn
      obtain ⟨fs, hfs, hyear⟩ := take_slashGroup? hm
      rw [List.take_add, hmonth, hyear]
      exact .date hds hes hfs
  | case2 => exact hinteger
  | case3 c rest hdigit hslash =>
      rw [List.take_succ_cons, take_digitRun]
      exact .float hds (digits_takeWhile (by simpa [beginsWithDigit] using hdigit))
  | case4 => exact hinteger
  | case5 => exact .openFloat hds
  | case6 => exact .openFloat hds
  | case7 => exact hinteger

theorem spells_number (h : c.isDigit = true) (cs : List Char) :
    Spells (number (c :: cs)).kind ((c :: cs).take (number (c :: cs)).size) := by
  rw [number, List.take_add, take_digitRun]
  exact spells_numberTail (digits_takeWhile (by simpa [beginsWithDigit] using h)) _

/-- Digits with a point among them stand for a number. -/
theorem decimal_of_spells (h : Spells .float cs) : ∃ bits, Binary64.ofDecimal? cs = some bits := by
  -- The digits in front of the point, and those behind it.
  have hparts : ∀ {ds es : List Char}, (∀ c ∈ ds, c.isDigit = true) →
      (∀ c ∈ es, c.isDigit = true) → (ds ≠ [] ∨ es ≠ []) →
      ∃ bits, Binary64.ofDecimal? (ds ++ '.' :: es) = some bits := by
    intro ds es hds hes hsome
    have htake : (ds ++ '.' :: es).takeWhile Char.isDigit = ds := by
      rw [List.takeWhile_append_of_pos hds]
      simp
    have hdrop : (ds ++ '.' :: es).dropWhile Char.isDigit = '.' :: es := by
      rw [List.dropWhile_append_of_pos hds]
      rfl
    have hempty : (ds.isEmpty && es.isEmpty) = false := by
      rcases hsome with h | h <;> simp [h]
    exact ⟨_, by
      rw [Binary64.ofDecimal?, htake, hdrop]
      exact if_pos (by rw [List.all_eq_true.mpr hes, hempty]; rfl)⟩
  cases h with
  | float hds hes => exact hparts hds.2 hes.2 (.inl hds.1)
  | openFloat hds => exact hparts hds.2 (by simp) (.inl hds.1)
  | pointFloat hes => exact hparts (List.forall_mem_nil _) hes.2 (.inr hes.1)

/-! ### All tokens -/

theorem spells_dot (cs : List Char) (h : (dot cs).kind.isPlain = true) :
    Spells (dot cs).kind (('.' :: cs).take (dot cs).size) := by
  unfold dot at h ⊢
  split
  · rw [List.take_succ_cons, take_digitRun]
    exact .pointFloat (digits_takeWhile ‹_›)
  · rename_i hdigit
    rw [if_neg hdigit] at h
    split at h
    · cases h
    split at h
    · rename_i hk
      rcases dottedWord_cases hk with rfl | rfl | ⟨o, rfl⟩ <;> cases h
    · cases h

theorem spells_word (hc : isWordStart c = true) (h : (word (c :: cs)).kind.isPlain = true) :
    Spells (word (c :: cs)).kind ((c :: cs).take (word (c :: cs)).size) := by
  rw [take_word]
  rw [word_kind] at h ⊢
  split
  · rename_i hk
    rw [hk] at h
    cases h
  · rename_i hname
    rw [List.takeWhile_cons_of_pos (isWordPart_of_isWordStart hc)] at hname ⊢
    exact .identifier hc (List.all_eq_true.mp List.all_takeWhile) hname

theorem not_plain_symbol (cs : List Char) :
    (symbol cs).kind.isPlain = false ∧ (symbol cs).kind ≠ .string := by
  have hall : ∀ s ∈ symbols, s.2.isPlain = false ∧ s.2 ≠ .string := by decide
  unfold symbol
  split
  · rename_i hs
    exact hall _ (List.mem_of_find?_eq_some hs)
  · exact ⟨rfl, by simp⟩

/-- A name, a number or a date is spelled as one. -/
theorem spells_read (h : (read c cs).kind.isPlain = true) :
    Spells (read c cs).kind ((c :: cs).take (read c cs).size) := by
  unfold read at h ⊢
  split at h
  · cases h
  rw [if_neg ‹_›]
  split at h
  · rw [if_pos ‹_›]
    exact spells_number ‹_› cs
  rw [if_neg ‹_›]
  split at h
  · rename_i hpoint
    rw [if_pos hpoint, hpoint]
    exact spells_dot cs h
  rw [if_neg ‹_›]
  split at h
  · rw [if_pos ‹_›]
    exact spells_word ‹_› h
  · rw [(not_plain_symbol (c :: cs)).1] at h
    cases h

/-- Only a delimiter begins a string. -/
theorem isDelimiter_of_string (h : (read c cs).kind = .string) : isDelimiter c = true := by
  unfold read at h
  split at h
  · assumption
  split at h
  · rcases kind_numberTail_cases ((c :: cs).drop (digitRun (c :: cs))) with hk | hk | hk <;>
      simp [number, hk] at h
  split at h
  · unfold dot at h
    split at h
    · cases h
    split at h
    · cases h
    split at h
    · rename_i hk
      rcases dottedWord_cases hk with rfl | rfl | ⟨o, rfl⟩ <;> cases h
    · cases h
  split at h
  · rw [word_kind] at h
    split at h <;> cases h
  · exact absurd h (not_plain_symbol (c :: cs)).2

/-- What is kept of a string is closed by its delimiter again, unless a backslash takes that. -/
theorem body_stringBody (h : Literal.isPending (Literal.stringBody d cs) = false) :
    Body d (Literal.stringBody d cs) := by
  fun_induction Literal.stringBody d cs with
  | case1 c cs ih =>
      rw [Literal.isPending] at h
      exact .escape (ih h)
  | case2 => exact .nil
  | case3 c cs hpair hc ih =>
      have hlast : c ≠ '\\' := by
        rintro rfl
        cases cs with
        | nil => simp [Literal.stringBody, Literal.isPending] at h
        | cons c' cs => exact hpair c' cs rfl rfl
      refine .char hlast hc (ih ?_)
      rw [Literal.isPending] at h
      · exact h
      · exact fun hc' => absurd hc' hlast
      · exact fun _ _ hc' => absurd hc' hlast
  | case4 => exact .nil

end Lexeme

namespace Token

/-- The token can be written again as it is, or between its delimiters if it is a string, or in the
case of a style if it is the receiver. -/
structure Writable (t : Token) : Prop where
  plain : t.kind.isPlain = true → Lexeme.Spells t.kind t.literal.toList
  receiver : t.kind = .keyword .kwSelf → Keyword.ofWord? t.literal = some .kwSelf
  delimiter : t.kind = .string → Lexeme.isDelimiter (Literal.stringParts t.literal).1 = true
  body : t.kind = .string → Lexeme.Body (Literal.stringParts t.literal).1
    (Literal.stringParts t.literal).2.toList

/-- A string that no delimiter closes, since a backslash would take it. -/
def isPending (t : Token) : Bool :=
  t.kind == .string && Literal.isPending (Literal.stringParts t.literal).2.toList

end Token

/-- A name, a number or a date that is read is spelled as one. -/
theorem Cursor.next_plain {file : String} {c : Cursor} (h : ¬c.AtEnd file)
    (hk : (c.next file).1.kind.isPlain = true) :
    Lexeme.Spells (c.next file).1.kind (c.next file).1.literal.toList := by
  obtain ⟨gap, _, _, _, hnext⟩ := c.next_eq file
  cases hs : c.skipTrivia.ahead with
  | nil => exact absurd (atEnd_iff.mpr hs) h
  | cons first others =>
      simp only [hs] at hnext
      obtain ⟨hkind, hliteral, -⟩ := hnext
      rw [hliteral, String.toList_ofList, hkind]
      exact Lexeme.spells_read (hkind ▸ hk)

theorem Cursor.next_writable {file : String} {c : Cursor} (h : ¬c.AtEnd file)
    (hpending : (c.next file).1.isPending = false) : (c.next file).1.Writable := by
  obtain ⟨gap, _, _, _, hnext⟩ := c.next_eq file
  cases hs : c.skipTrivia.ahead with
  | nil => exact absurd (atEnd_iff.mpr hs) h
  | cons first others =>
      simp only [hs] at hnext
      obtain ⟨hkind, -, -⟩ := hnext
      have hstring : (c.next file).1.kind = .string →
          Lexeme.isDelimiter first = true ∧ Literal.stringParts (c.next file).1.literal =
            (first, String.ofList (Literal.stringBody first others)) := by
        intro hk
        have hdelimiter := Lexeme.isDelimiter_of_string (hkind ▸ hk)
        refine ⟨hdelimiter, Lexeme.stringParts_of_scanned ?_⟩
        rw [next_delimiter hs hdelimiter, String.toList_ofList]
      refine ⟨next_plain h, (next_spelled h).receiver, fun hk => ?_, fun hk => ?_⟩
      · rw [(hstring hk).2]
        exact (hstring hk).1
      · obtain ⟨-, hparts⟩ := hstring hk
        rw [Token.isPending, hk, hparts, String.toList_ofList] at hpending
        rw [hparts, String.toList_ofList]
        exact Lexeme.body_stringBody (by simpa using hpending)

theorem Scans.plain {file : String} {c c' : Cursor} {ts : List Token} (h : Scans file c ts c') :
    ∀ t ∈ ts, t.kind.isPlain = true → Lexeme.Spells t.kind t.literal.toList := by
  induction h with
  | done => simp
  | token hopen _ ih => exact List.forall_mem_cons.mpr ⟨Cursor.next_plain hopen, ih⟩

/-- Every name, number and date of a text is spelled as one. -/
theorem TokenStream.plain_ofText (file source : String) :
    ∀ t ∈ (ofText file source).body, t.kind.isPlain = true →
      Lexeme.Spells t.kind t.literal.toList := by
  obtain ⟨_, hts, -, -⟩ := (ofText_iff file source _).mp rfl
  exact hts.plain

theorem Scans.writable {file : String} {c c' : Cursor} {ts : List Token} (h : Scans file c ts c')
    (hpending : ∀ t ∈ ts, t.isPending = false) : ∀ t ∈ ts, t.Writable := by
  induction h with
  | done => simp
  | token hopen _ ih =>
      rw [List.forall_mem_cons] at hpending ⊢
      exact ⟨Cursor.next_writable hopen hpending.1, ih hpending.2⟩

/-- Every token of a text can be written again, unless a backslash is left over in a string. -/
theorem tokens_writable {source file : String} (h : ∀ t ∈ tokens source file, t.isPending = false) :
    ∀ t ∈ tokens source file, t.Writable := by
  obtain ⟨c, hts, hend, hlast⟩ := (TokenStream.ofText_iff file source _).mp rfl
  have hkind : (c.next file).1.kind = .endOfInput := by simpa [Cursor.AtEnd, Token.isEnd] using hend
  rw [tokens, TokenStream.toList, List.forall_mem_append] at h ⊢
  refine ⟨hts.writable h.1, ?_⟩
  rw [List.forall_mem_singleton, ← hlast]
  constructor <;> simp [hkind, TokenKind.isPlain]

end Clipper
