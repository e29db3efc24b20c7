import Clipper.Proofs.Lexing.Append
import Mathlib

/-!
Printing and lexing. Spelled tokens with a space between them are read back as they are: no
token is glued to its neighbour, and none is taken for a comment or a directive.
-/

namespace Clipper

namespace Text

theorem eq_of_toLower {c d : Char} (h : c.toLower = d.toLower) (hd : d.isAlpha = false) : c = d := by
  have hc : c.isAlpha = false := by
    rw [← Char.isAlpha_toLower_eq_isAlpha, h, Char.isAlpha_toLower_eq_isAlpha, hd]
  have hupper : ∀ {c : Char}, c.isAlpha = false → ¬c.isUpper = true := by
    intro c hc
    rw [Char.isAlpha, Bool.or_eq_false_iff] at hc
    simp [hc.1]
  rwa [Char.toLower_eq_of_not_isUpper (hupper hc), Char.toLower_eq_of_not_isUpper (hupper hd)] at h

/-- What has no letters is spelled in one way only. -/
theorem eq_of_sameWord {s t : String} (h : sameWord s t = true)
    (hs : ∀ c ∈ s.toList, c.isAlpha = false) : t = s := by
  have hfolded : t.toList.map Char.toLower = s.toList.map Char.toLower := (sameWord_iff.mp h).symm
  have hlist : ∀ {cs ds : List Char}, cs.map Char.toLower = ds.map Char.toLower →
      (∀ c ∈ ds, c.isAlpha = false) → cs = ds := by
    intro cs ds hfolded hds
    induction ds generalizing cs with
    | nil => exact List.map_eq_nil_iff.mp hfolded
    | cons d ds ih =>
        obtain ⟨c, cs, rfl, hc, hcs⟩ := List.map_eq_cons_iff.mp hfolded
        rw [List.forall_mem_cons] at hds
        rw [eq_of_toLower hc hds.1, ih hcs hds.2]
  exact String.toList_inj.mp (hlist hfolded hs)

theorem all_isAlpha_of_folded {cs ds : List Char} (h : cs.map Char.toLower = ds.map Char.toLower)
    (hds : ∀ c ∈ ds, c.isAlpha = true) : ∀ c ∈ cs, c.isAlpha = true := by
  intro c hc
  obtain ⟨d, hd, heq⟩ := List.mem_map.mp (h ▸ List.mem_map_of_mem hc)
  rw [← Char.isAlpha_toLower_eq_isAlpha, ← heq, Char.isAlpha_toLower_eq_isAlpha]
  exact hds d hd

end Text

theorem Keyword.ofWord?_congr {s t : String} (h : Text.sameWord s t = true) :
    ofWord? s = ofWord? t := by
  simp only [ofWord?, Text.sameWord, Text.sameWord_iff.mp h]

theorem Operator.ofWord?_congr {s t : String} (h : Text.sameWord s t = true) :
    ofWord? s = ofWord? t := by
  simp only [ofWord?, Text.sameWord, Text.sameWord_iff.mp h]

theorem takeWhile_append_of_head {p : Char → Bool} {cs ds : List Char} (hcs : ∀ c ∈ cs, p c = true)
    (hds : ∀ c ∈ ds.head?, p c = false) : (cs ++ ds).takeWhile p = cs := by
  rw [List.takeWhile_append_of_pos hcs]
  cases ds with
  | nil => simp
  | cons d ds => simp [hds d rfl]

namespace Lexeme

/-- The body of a string that the delimiter does not close. -/
inductive Body (delimiter : Char) : List Char → Prop
  | nil : Body delimiter []
  | escape {c : Char} {cs : List Char} : Body delimiter cs → Body delimiter ('\\' :: c :: cs)
  | char {c : Char} {cs : List Char} : c ≠ '\\' → c ≠ delimiter → Body delimiter cs →
      Body delimiter (c :: cs)

def Digits (cs : List Char) : Prop := cs ≠ [] ∧ ∀ c ∈ cs, c.isDigit = true

/-- The spellings of the tokens of a kind. Words and dotted words may be in any case. -/
inductive Spells : TokenKind → List Char → Prop
  | identifier {c : Char} {cs : List Char} : isWordStart c = true →
      (∀ d ∈ cs, isWordPart d = true) → Keyword.ofWord? (String.ofList (c :: cs)) = none →
      Spells .identifier (c :: cs)
  | keyword {k : Keyword} {s t : String} : s ∈ k.spellings → Text.sameWord s t = true →
      Spells (.keyword k) t.toList
  | operator {o : Operator} {s t : String} : s ∈ o.spellings → Text.sameWord s t = true →
      Spells (.operator o) t.toList
  | punctuation (p : Punctuation) : Spells (.punctuation p) p.canonical.toList
  | integer {ds : List Char} : Digits ds → Spells .integer ds
  | float {ds es : List Char} : Digits ds → Digits es → Spells .float (ds ++ '.' :: es)
  | openFloat {ds : List Char} : Digits ds → Spells .float (ds ++ ['.'])
  | pointFloat {ds : List Char} : Digits ds → Spells .float ('.' :: ds)
  | date {ds es fs : List Char} : Digits ds → Digits es → Digits fs →
      Spells .date (ds ++ '/' :: (es ++ '/' :: fs))
  | string {d : Char} {cs : List Char} : isDelimiter d = true → Body d cs →
      Spells .string (d :: (cs ++ [d]))

/-- A space comes next, or nothing. -/
def Apart (rest : List Char) : Prop := ∀ c ∈ rest.head?, c = ' '

/-- Neither a gap nor a piece of one begins here. A number sign does so on a fresh line only. -/
structure Begins (c : Char) (cs : List Char) : Prop where
  notBlank : Text.isBlank c = false
  notAmpersand : c ≠ '&'
  alone : c = '/' ∨ c = '#' → cs = []

/-- Such a text is read as one token of the kind, whatever stands apart behind it. -/
def Reads (k : TokenKind) (text : List Char) : Prop :=
  ∃ c cs, text = c :: cs ∧ Begins c cs ∧
    ∀ rest, Apart rest → read c (cs ++ rest) = ⟨k, cs.length + 1⟩

theorem Apart.not_comment {rest : List Char} (h : Apart rest) {c : Char} (_ : c = '/') :
    ∀ d ∈ rest.head?, d ≠ '/' ∧ d ≠ '*' := by
  intro d hd
  rw [h d hd]
  decide

theorem Apart.head {rest : List Char} (h : Apart rest) {p : Char → Bool} (hp : p ' ' = false) :
    ∀ c ∈ rest.head?, p c = false := fun c hc => h c hc ▸ hp

/-! ### Words -/

set_option maxRecDepth 4000 in
theorem not_isWordStart_of_isBlank {c : Char} (h : Text.isBlank c = true) : isWordStart c = false := by
  have hall : ∀ r ∈ Text.blankRanges, ∀ n ∈ List.range' r.1 (r.2 - r.1 + 1),
      Text.inRanges Text.alphabeticRanges n = false ∧ n ≠ '_'.toNat := by
    decide
  obtain ⟨r, hr, hlo, hhi⟩ := Text.inRanges_mem h
  obtain ⟨halpha, hne⟩ := hall r hr c.toNat (List.mem_range'_1.mpr ⟨hlo, by omega⟩)
  rw [isWordStart, Text.isAlphabetic, halpha, Bool.false_or, beq_eq_false_iff_ne]
  rintro rfl
  exact hne rfl

theorem toNat_of_isDigit {c : Char} (h : c.isDigit = true) : 48 ≤ c.toNat ∧ c.toNat ≤ 57 := by
  simp only [Char.isDigit, Bool.and_eq_true, decide_eq_true_eq, ge_iff_le,
    UInt32.le_iff_toNat_le] at h
  exact h

theorem toNat_of_isAlpha {c : Char} (h : c.isAlpha = true) :
    (65 ≤ c.toNat ∧ c.toNat ≤ 90) ∨ (97 ≤ c.toNat ∧ c.toNat ≤ 122) := by
  simp only [Char.isAlpha, Char.isUpper, Char.isLower, Bool.or_eq_true, Bool.and_eq_true,
    decide_eq_true_eq, ge_iff_le, UInt32.le_iff_toNat_le] at h
  exact h

theorem not_isWordStart_of_isDigit {c : Char} (h : c.isDigit = true) : isWordStart c = false := by
  have hall : ∀ n ∈ List.range' 48 10, Text.inRanges Text.alphabeticRanges n = false ∧
      n ≠ '_'.toNat := by
    decide
  obtain ⟨hlo, hhi⟩ := toNat_of_isDigit h
  obtain ⟨halpha, hne⟩ := hall c.toNat (List.mem_range'_1.mpr ⟨hlo, by omega⟩)
  rw [isWordStart, Text.isAlphabetic, halpha, Bool.false_or, beq_eq_false_iff_ne]
  rintro rfl
  exact hne rfl

/-- The signs, and what else no word begins with. -/
def marks : List Char :=
  ['"', '\x27', '.', '&', '/', '#', ':', '+', '-', '*', '%', '=', '!', '<', '>', '$', ',', '(', ')',
    '[', ']', '\x7b', '\x7d']

theorem not_isWordStart_of_mem {c : Char} (h : c ∈ marks) : isWordStart c = false := by
  simp only [marks] at h
  fin_cases h <;> decide

theorem isWordStart_of_isAlpha {c : Char} (h : c.isAlpha = true) : isWordStart c = true := by
  have hrange := toNat_of_isAlpha h
  rw [isWordStart, Bool.or_eq_true]
  refine .inl ?_
  -- The first two ranges are those of the letters A to Z in both cases.
  rw [Text.isAlphabetic, Text.alphabeticRanges, Text.inRanges, Text.inRanges]
  split
  · omega
  split
  · rfl
  split
  · omega
  split
  · rfl
  · omega

theorem isWordPart_of_isWordStart {c : Char} (h : isWordStart c = true) : isWordPart c = true := by
  rw [isWordStart, Bool.or_eq_true] at h
  rcases h with h | h <;> simp [isWordPart, h]

theorem ne_of_isWordStart {c d : Char} (h : isWordStart c = true) (hd : isWordStart d = false) :
    c ≠ d := by
  rintro rfl
  rw [h] at hd
  cases hd

theorem begins_of_isWordStart {c : Char} (h : isWordStart c = true) (cs : List Char) :
    Begins c cs := by
  have hne : ∀ d ∈ marks, c ≠ d := fun d hd =>
    ne_of_isWordStart h (not_isWordStart_of_mem hd)
  refine ⟨?_, hne '&' (by decide), ?_⟩
  · cases hblank : Text.isBlank c with
    | false => rfl
    | true => exact absurd rfl (ne_of_isWordStart h (not_isWordStart_of_isBlank hblank))
  · rintro (rfl | rfl)
    · exact absurd rfl (hne '/' (by decide))
    · exact absurd rfl (hne '#' (by decide))

theorem read_of_isWordStart {c : Char} (h : isWordStart c = true) (cs : List Char) :
    read c cs = word (c :: cs) := by
  have hne : ∀ d ∈ marks, c ≠ d := fun d hd =>
    ne_of_isWordStart h (not_isWordStart_of_mem hd)
  have hdelimiter : isDelimiter c = false := by
    simp [isDelimiter, hne '"' (by decide), hne '\x27' (by decide)]
  have hdigit : c.isDigit = false := by
    cases hdigit : c.isDigit with
    | false => rfl
    | true => exact absurd rfl (ne_of_isWordStart h (not_isWordStart_of_isDigit hdigit))
  simp [read, hdelimiter, hdigit, hne '.' (by decide), h]

theorem isWordPart_space : isWordPart ' ' = false := by decide

theorem reads_word {c : Char} {cs : List Char} (hc : isWordStart c = true)
    (hcs : ∀ d ∈ cs, isWordPart d = true) :
    Reads (match Keyword.ofWord? (String.ofList (c :: cs)) with
      | some k => .keyword k
      | none => .identifier) (c :: cs) := by
  refine ⟨c, cs, rfl, begins_of_isWordStart hc cs, fun rest hrest => ?_⟩
  have hletters : (c :: (cs ++ rest)).takeWhile isWordPart = c :: cs :=
    takeWhile_append_of_head
      (List.forall_mem_cons.mpr ⟨isWordPart_of_isWordStart hc, hcs⟩) (hrest.head isWordPart_space)
  rw [read_of_isWordStart hc, word, hletters]
  rfl

theorem reads_letters {cs : List Char} (hne : cs ≠ []) (hcs : ∀ c ∈ cs, c.isAlpha = true)
    {k : Keyword} (hk : Keyword.ofWord? (String.ofList cs) = some k) : Reads (.keyword k) cs := by
  cases cs with
  | nil => exact absurd rfl hne
  | cons c cs =>
      rw [List.forall_mem_cons] at hcs
      have hword := reads_word (isWordStart_of_isAlpha hcs.1)
        fun d hd => isWordPart_of_isWordStart (isWordStart_of_isAlpha (hcs.2 d hd))
      rw [hk] at hword
      exact hword

/-! ### Dotted words -/

theorem begins_of_ne {c : Char} (hblank : Text.isBlank c = false) (hne : c ≠ '&' ∧ c ≠ '/' ∧ c ≠ '#')
    (cs : List Char) : Begins c cs :=
  ⟨hblank, hne.1, fun h => (h.elim hne.2.1 hne.2.2).elim⟩

theorem isDigit_of_isAlpha {c : Char} (h : c.isAlpha = true) : c.isDigit = false := by
  cases hdigit : c.isDigit with
  | false => rfl
  | true =>
      have := toNat_of_isAlpha h
      have := toNat_of_isDigit hdigit
      omega

theorem reads_dotted {cs : List Char} (hne : cs ≠ []) (hcs : ∀ c ∈ cs, c.isAlpha = true)
    {k : TokenKind} (hk : dottedWord? (String.ofList ('.' :: cs ++ ['.'])) = some k) :
    Reads k ('.' :: cs ++ ['.']) := by
  refine ⟨'.', cs ++ ['.'], rfl, begins_of_ne (by decide) (by decide) _, fun rest _ => ?_⟩
  have hread : read '.' (cs ++ ['.'] ++ rest) = dot (cs ++ '.' :: rest) := by
    simp [read, isDelimiter]
  have hletters : (cs ++ '.' :: rest).takeWhile Char.isAlpha = cs :=
    takeWhile_append_of_head hcs (by simp)
  have hdigit : beginsWithDigit (cs ++ '.' :: rest) = false := by
    cases cs with
    | nil => exact absurd rfl hne
    | cons c cs => simp [beginsWithDigit, isDigit_of_isAlpha (hcs c List.mem_cons_self)]
  have hdotted : dottedLetters? (cs ++ '.' :: rest) = some ('.' :: cs ++ ['.']) := by
    simp [dottedLetters?, hletters, hne]
  rw [hread, dot, hdigit, if_neg Bool.false_ne_true, hdotted]
  simp only [hk]
  simp

/-! ### Signs -/

/-- No token of another shape, and no gap, begins with the first character of a sign. -/
theorem symbols_head {s : List Char × TokenKind} (hs : s ∈ symbols) :
    s.1.head?.all (fun c => c ∈ marks && !isDelimiter c && !c.isDigit && c != '.' &&
      !Text.isBlank c && c != '&' && (s.1.tail.isEmpty || c != '/' && c != '#')) = true := by
  have hall : ∀ s ∈ symbols, s.1.head?.all (fun c =>
      c ∈ marks && !isDelimiter c && !c.isDigit && c != '.' && !Text.isBlank c && c != '&' &&
        (s.1.tail.isEmpty || c != '/' && c != '#')) = true := by
    decide
  exact hall s hs

/-- Each sign is found first in itself. -/
theorem symbols_find {s : List Char × TokenKind} (hs : s ∈ symbols) :
    ' ' ∉ s.1 ∧ symbols.find? (fun t => t.1.isPrefixOf s.1) = some s := by
  have hall : ∀ s ∈ symbols, ' ' ∉ s.1 ∧
      symbols.find? (fun t => t.1.isPrefixOf s.1) = some s := by
    decide
  exact hall s hs

theorem reads_symbol {s : List Char × TokenKind} (hs : s ∈ symbols) : Reads s.2 s.1 := by
  have hhead := symbols_head hs
  have hfind := (symbols_find hs).2
  obtain ⟨text, k⟩ := s
  cases text with
  | nil => exact absurd rfl (mem_symbols hs).1
  | cons c cs =>
      simp only [List.head?_cons, Option.all_some, Bool.and_eq_true, Bool.not_eq_true',
        decide_eq_true_eq, bne_iff_ne, List.tail_cons, Bool.or_eq_true, List.isEmpty_iff] at hhead
      obtain ⟨⟨⟨⟨⟨⟨hmark, hdelimiter⟩, hdigit⟩, hpoint⟩, hblank⟩, hampersand⟩, halone⟩ := hhead
      have hword := not_isWordStart_of_mem hmark
      have halone : c = '/' ∨ c = '#' → cs = [] := fun h =>
        halone.resolve_right fun hne => h.elim hne.1 hne.2
      refine ⟨c, cs, rfl, ⟨hblank, hampersand, halone⟩, fun rest hrest => ?_⟩
      have hread : read c (cs ++ rest) = symbol (c :: cs ++ rest) := by
        simp [read, hdelimiter, hdigit, hpoint, hword]
      have hsame : symbols.find? (fun t => t.1.isPrefixOf (c :: cs ++ rest)) =
          symbols.find? (fun t => t.1.isPrefixOf (c :: cs)) := by
        refine List.find?_congr fun t ht => ?_
        rw [Bool.eq_iff_iff, List.isPrefixOf_iff_prefix, List.isPrefixOf_iff_prefix]
        refine ⟨fun hbegins => ?_, fun hbegins => hbegins.trans (List.prefix_append _ _)⟩
        -- A sign that went on behind this one would have a space in it.
        rcases List.prefix_or_prefix_of_prefix hbegins (List.prefix_append _ _) with h | h
        · exact h
        · obtain ⟨more, hmore⟩ := h
          rw [← hmore] at hbegins ⊢
          cases more with
          | nil => simp
          | cons d more =>
              rw [List.prefix_append_right_inj] at hbegins
              cases rest with
              | nil => simp at hbegins
              | cons e rest =>
                  obtain rfl : d = e := (List.cons_prefix_cons.mp hbegins).1
                  obtain rfl : d = ' ' := hrest d rfl
                  refine absurd ?_ (symbols_find ht).1
                  rw [← hmore]
                  simp
      rw [hread, symbol, hsame, hfind]
      rfl

/-! ### Numbers -/

theorem digitRun_append_of_head {ds rest : List Char} (hds : ∀ c ∈ ds, c.isDigit = true)
    (hrest : ∀ c ∈ rest.head?, c.isDigit = false) : digitRun (ds ++ rest) = ds.length := by
  rw [digitRun, takeWhile_append_of_head hds hrest]

theorem not_isBlank_of_isDigit {c : Char} (h : c.isDigit = true) : Text.isBlank c = false := by
  have hall : ∀ n ∈ List.range' 48 10, Text.inRanges Text.blankRanges n = false := by decide
  obtain ⟨hlo, hhi⟩ := toNat_of_isDigit h
  exact hall c.toNat (List.mem_range'_1.mpr ⟨hlo, by omega⟩)

theorem read_digit {c : Char} (hc : c.isDigit = true) (cs : List Char) :
    read c cs = number (c :: cs) := by
  have hdelimiter : isDelimiter c = false := by
    cases hdelimiter : isDelimiter c with
    | false => rfl
    | true =>
        rw [isDelimiter, Bool.or_eq_true, beq_iff_eq, beq_iff_eq] at hdelimiter
        rcases hdelimiter with rfl | rfl <;> cases hc
  rw [read, hdelimiter, if_neg Bool.false_ne_true, if_pos hc]

/-- A number is its first digits and what they are followed by. -/
theorem reads_number {ds tail : List Char} {k : TokenKind} (hds : Digits ds)
    (htail : ∀ rest, Apart rest → (∀ c ∈ (tail ++ rest).head?, c.isDigit = false) ∧
      numberTail (tail ++ rest) = ⟨k, tail.length⟩) : Reads k (ds ++ tail) := by
  obtain ⟨hne, hds⟩ := hds
  cases ds with
  | nil => exact absurd rfl hne
  | cons c ds =>
      have hc := hds c List.mem_cons_self
      have hbegins : Begins c (ds ++ tail) := by
        refine begins_of_ne (not_isBlank_of_isDigit hc) ⟨?_, ?_, ?_⟩ _
        all_goals
          rintro rfl
          cases hc
      refine ⟨c, ds ++ tail, rfl, hbegins, fun rest hrest => ?_⟩
      obtain ⟨hhead, htail⟩ := htail rest hrest
      rw [read_digit hc, List.append_assoc, ← List.cons_append, number,
        digitRun_append_of_head hds hhead, List.drop_left, htail]
      simp
      omega

theorem numberTail_of_apart {rest : List Char} (h : Apart rest) :
    numberTail rest = ⟨.integer, 0⟩ := by
  cases rest with
  | nil => rfl
  | cons c rest =>
      obtain rfl : c = ' ' := h c rfl
      simp [numberTail, slashGroup?]

theorem reads_integer {ds : List Char} (hds : Digits ds) : Reads .integer ds := by
  have hreads : Reads .integer (ds ++ []) := by
    refine reads_number hds fun rest hrest => ⟨?_, numberTail_of_apart hrest⟩
    exact hrest.head (by decide)
  rwa [List.append_nil] at hreads

theorem reads_float {ds es : List Char} (hds : Digits ds) (hes : Digits es) :
    Reads .float (ds ++ '.' :: es) := by
  refine reads_number hds fun rest hrest => ⟨by simp, ?_⟩
  have hrun := digitRun_append_of_head hes.2 (hrest.head (p := Char.isDigit) (by decide))
  obtain ⟨hne, hes⟩ := hes
  cases es with
  | nil => exact absurd rfl hne
  | cons e es =>
      have he := hes e List.mem_cons_self
      rw [List.cons_append] at hrun
      simp [numberTail, slashGroup?, he, hrun]

theorem isAlphabetic_space : Text.isAlphabetic ' ' = false := by decide

theorem reads_openFloat {ds : List Char} (hds : Digits ds) : Reads .float (ds ++ ['.']) := by
  refine reads_number hds fun rest hrest => ⟨by simp, ?_⟩
  cases rest with
  | nil => rfl
  | cons c rest =>
      obtain rfl : c = ' ' := hrest c rfl
      simp [numberTail, slashGroup?, isAlphabetic_space]

theorem beginsWithDigit_of_digits {ds : List Char} (hds : Digits ds) (rest : List Char) :
    beginsWithDigit (ds ++ rest) = true := by
  obtain ⟨hne, hds⟩ := hds
  cases ds with
  | nil => exact absurd rfl hne
  | cons d ds => simp [beginsWithDigit, hds d List.mem_cons_self]

theorem reads_pointFloat {ds : List Char} (hds : Digits ds) : Reads .float ('.' :: ds) := by
  refine ⟨'.', ds, rfl, begins_of_ne (by decide) (by decide) _, fun rest hrest => ?_⟩
  have hread : read '.' (ds ++ rest) = dot (ds ++ rest) := by
    simp [read, isDelimiter]
  rw [hread, dot, if_pos (beginsWithDigit_of_digits hds rest),
    digitRun_append_of_head hds.2 (hrest.head (by decide))]

theorem slashGroup?_digits {ds rest : List Char} (hds : Digits ds)
    (hrest : ∀ c ∈ rest.head?, c.isDigit = false) :
    slashGroup? ('/' :: (ds ++ rest)) = some (ds.length + 1) := by
  have hrun := digitRun_append_of_head hds.2 hrest
  obtain ⟨hne, hds⟩ := hds
  cases ds with
  | nil => exact absurd rfl hne
  | cons d ds =>
      have hd := hds d List.mem_cons_self
      rw [List.cons_append] at hrun
      simp [slashGroup?, beginsWithDigit, hd, hrun]

/-- The second and the third group of a date. -/
theorem numberTail_groups {es fs rest : List Char} (hes : Digits es) (hfs : Digits fs)
    (hrest : ∀ c ∈ rest.head?, c.isDigit = false) :
    numberTail ('/' :: (es ++ '/' :: fs) ++ rest) =
      ⟨.date, ('/' :: (es ++ '/' :: fs)).length⟩ := by
  have hmonth : slashGroup? ('/' :: (es ++ '/' :: fs) ++ rest) = some (es.length + 1) := by
    rw [List.cons_append, List.append_assoc, List.cons_append]
    exact slashGroup?_digits hes (by simp)
  have hdrop : ('/' :: (es ++ '/' :: fs) ++ rest).drop (es.length + 1) = '/' :: (fs ++ rest) := by
    simp
  have hyear : slashGroup? ('/' :: (fs ++ rest)) = some (fs.length + 1) :=
    slashGroup?_digits hfs hrest
  simp only [numberTail, hmonth, hdrop, hyear]
  simp
  omega

theorem reads_date {ds es fs : List Char} (hds : Digits ds) (hes : Digits es) (hfs : Digits fs) :
    Reads .date (ds ++ '/' :: (es ++ '/' :: fs)) :=
  reads_number hds fun _ hrest =>
    ⟨by simp, numberTail_groups hes hfs (hrest.head (by decide))⟩

/-! ### Strings -/

theorem stringLength_body {d : Char} (hd : d ≠ '\\') {cs : List Char} (h : Body d cs)
    (rest : List Char) : stringLength d (cs ++ d :: rest) = cs.length + 1 := by
  induction h with
  | nil => simp [stringLength, hd]
  | @escape c cs _ ih => simp [stringLength, ih]
  | @char c cs hslash hc _ ih => simp [stringLength, hslash, hc, ih]

theorem begins_delimiter {d : Char} (hd : isDelimiter d = true) (cs : List Char) : Begins d cs := by
  have hmem : d = '"' ∨ d = '\x27' := by simpa [isDelimiter] using hd
  rcases hmem with rfl | rfl
  · exact begins_of_ne (by decide) (by decide) cs
  · exact begins_of_ne (by decide) (by decide) cs

theorem reads_string {d : Char} {cs : List Char} (hd : isDelimiter d = true) (hcs : Body d cs) :
    Reads .string (d :: (cs ++ [d])) := by
  refine ⟨d, cs ++ [d], rfl, begins_delimiter hd _, fun rest _ => ?_⟩
  rw [read_delimiter hd, List.append_assoc]
  show Lexeme.mk .string (stringLength d (cs ++ d :: rest) + 1) = _
  rw [stringLength_body (ne_of_isDelimiter hd).1 hcs]
  simp

/-! ### The words and signs of the language -/

theorem dottedWord?_congr {s t : String} (h : Text.sameWord s t = true) :
    dottedWord? s = dottedWord? t := by
  simp only [dottedWord?, Keyword.ofWord?_congr h, Operator.ofWord?_congr h]

/-- What stands between the first and the last character. -/
def inner (cs : List Char) : List Char := cs.tail.dropLast

/-- Letters between points. -/
def IsDotted (cs : List Char) : Prop :=
  cs = '.' :: inner cs ++ ['.'] ∧ inner cs ≠ [] ∧ (inner cs).all Char.isAlpha = true

instance (cs : List Char) : Decidable (IsDotted cs) := inferInstanceAs (Decidable (_ ∧ _ ∧ _))

theorem reads_dotted_of_sameWord {s t : String} {k : TokenKind} (hs : IsDotted s.toList)
    (hk : dottedWord? s = some k) (h : Text.sameWord s t = true) : Reads k t.toList := by
  obtain ⟨hlist, hne, halpha⟩ := hs
  have hfolded : t.toList.map Char.toLower = s.toList.map Char.toLower :=
    (Text.sameWord_iff.mp h).symm
  rw [hlist, List.cons_append, List.map_cons, List.map_append] at hfolded
  obtain ⟨c, rest, hc, hpoint, hrest⟩ := List.map_eq_cons_iff.mp hfolded
  obtain ⟨letters, more, rfl, hletters, hmore⟩ := List.map_eq_append_iff.mp hrest
  obtain ⟨d, rfl, hpoint'⟩ := List.map_eq_singleton_iff.mp hmore
  obtain rfl : c = '.' := Text.eq_of_toLower hpoint (by decide)
  obtain rfl : d = '.' := Text.eq_of_toLower hpoint' (by decide)
  have htext : t = String.ofList ('.' :: letters ++ ['.']) := by
    rw [← String.ofList_toList (s := t), hc]
    rfl
  rw [dottedWord?_congr h, htext] at hk
  rw [hc]
  refine reads_dotted ?_ (Text.all_isAlpha_of_folded hletters (List.all_eq_true.mp halpha)) hk
  rintro rfl
  exact hne (List.map_eq_nil_iff.mp hletters.symm)

theorem keyword_spelling {k : Keyword} {s : String} (hs : s ∈ k.spellings) :
    (s.toList ≠ [] ∧ s.toList.all Char.isAlpha = true ∧ Keyword.ofWord? s = some k) ∨
      IsDotted s.toList ∧ dottedWord? s = some (.keyword k) := by
  have hall : ∀ k ∈ Keyword.all, ∀ s ∈ k.spellings,
      (s.toList ≠ [] ∧ s.toList.all Char.isAlpha = true ∧ Keyword.ofWord? s = some k) ∨
        IsDotted s.toList ∧ dottedWord? s = some (.keyword k) := by
    decide
  exact hall k k.mem_all s hs

theorem operator_spelling {o : Operator} {s : String} (hs : s ∈ o.spellings) :
    ((s.toList, .operator o) ∈ symbols ∧ s.toList.any Char.isAlpha = false) ∨
      IsDotted s.toList ∧ dottedWord? s = some (.operator o) := by
  have hall : ∀ o ∈ Operator.all, ∀ s ∈ o.spellings,
      ((s.toList, TokenKind.operator o) ∈ symbols ∧ s.toList.any Char.isAlpha = false) ∨
        IsDotted s.toList ∧ dottedWord? s = some (.operator o) := by
    decide
  exact hall o o.mem_all s hs

theorem punctuation_spelling (p : Punctuation) :
    (p.canonical.toList, TokenKind.punctuation p) ∈ symbols := by
  have hall : ∀ p ∈ Punctuation.all, (p.canonical.toList, TokenKind.punctuation p) ∈ symbols := by
    decide
  exact hall p p.mem_all

theorem Spells.reads {k : TokenKind} {text : List Char} (h : Spells k text) : Reads k text := by
  cases h with
  | identifier hc hcs hname =>
      have hword := reads_word hc hcs
      rw [hname] at hword
      exact hword
  | @keyword k s t hs hsame =>
      rcases keyword_spelling hs with ⟨hne, halpha, hword⟩ | ⟨hdotted, hword⟩
      · have hfolded : t.toList.map Char.toLower = s.toList.map Char.toLower :=
          (Text.sameWord_iff.mp hsame).symm
        refine reads_letters ?_
          (Text.all_isAlpha_of_folded hfolded (List.all_eq_true.mp halpha)) ?_
        · intro hnil
          rw [hnil] at hfolded
          exact hne (List.map_eq_nil_iff.mp hfolded.symm)
        · rw [String.ofList_toList, ← Keyword.ofWord?_congr hsame, hword]
      · exact reads_dotted_of_sameWord hdotted hword hsame
  | operator hs hsame =>
      rcases operator_spelling hs with ⟨hsymbol, halpha⟩ | ⟨hdotted, hword⟩
      · rw [Text.eq_of_sameWord hsame (by simpa using halpha)]
        exact reads_symbol hsymbol
      · exact reads_dotted_of_sameWord hdotted hword hsame
  | punctuation p => exact reads_symbol (punctuation_spelling p)
  | integer hds => exact reads_integer hds
  | float hds hes => exact reads_float hds hes
  | openFloat hds => exact reads_openFloat hds
  | pointFloat hds => exact reads_pointFloat hds
  | date hds hes hfs => exact reads_date hds hes hfs
  | string hd hcs => exact reads_string hd hcs

end Lexeme

/-! ### Texts of spelled tokens -/

namespace Trivia

open Lexeme

/-- Nothing is skipped in front of a token. A slash could begin a comment. -/
theorem skip_begins {p : Place} {fresh : Bool} {c : Char} {cs rest : List Char}
    (h : Begins c cs) (hfresh : fresh = true → c ≠ '#')
    (hrest : c = '/' → ∀ d ∈ rest.head?, d ≠ '/' ∧ d ≠ '*') :
    skip .blank p fresh (c :: (cs ++ rest)) = ⟨p, fresh, c :: (cs ++ rest)⟩ := by
  have hslash : ∀ d ds, c = '/' → cs ++ rest = d :: ds → d ≠ '/' ∧ d ≠ '*' := by
    intro d ds hc heq
    rw [h.alone (.inl hc), List.nil_append] at heq
    exact hrest hc d (by rw [heq]; rfl)
  have hdirective : (c = '#' && fresh) = false := by
    cases fresh with
    | false => simp
    | true => simpa using hfresh rfl
  rw [skip]
  · rw [h.notBlank, if_neg Bool.false_ne_true, if_neg (by simpa using hdirective)]
  · exact fun ds hc heq => (hslash '/' ds hc heq).1 rfl
  · exact fun ds hc _ => h.notAmpersand hc
  · exact fun ds hc heq => (hslash '*' ds hc heq).2 rfl

end Trivia

theorem Cursor.next_reads {c : Cursor} {k : TokenKind} {text rest : List Char}
    (h : Lexeme.Reads k text) (hrest : Lexeme.Apart rest)
    (hahead : c.skipTrivia.ahead = text ++ rest) (file : String) :
    ¬c.AtEnd file ∧ (c.next file).1.kind = k ∧ (c.next file).1.literal = String.ofList text ∧
      (c.next file).2.ahead = rest ∧ (c.next file).2.fresh = false := by
  obtain ⟨first, others, rfl, _, hread⟩ := h
  rw [List.cons_append] at hahead
  rw [atEnd_iff, hahead]
  simp [next, hahead, hread rest hrest]

/-- A token of the language as it may be written. -/
structure Spelling where
  kind : TokenKind
  text : String
  spells : Lexeme.Spells kind text.toList

namespace Spelling

/-- Some tokens with a space in front of each. -/
def spaced (ls : List Spelling) : List Char := ls.flatMap fun l => ' ' :: l.text.toList

theorem apart_spaced (ls : List Spelling) : Lexeme.Apart (spaced ls) := by
  cases ls with
  | nil => simp [spaced, Lexeme.Apart]
  | cons l ls => simp [spaced, Lexeme.Apart]

theorem scans_spaced (file : String) (ls : List Spelling) {c : Cursor}
    (hahead : c.ahead = spaced ls) (hfresh : c.fresh = false) :
    ∃ ts c', Scans file c ts c' ∧ c'.AtEnd file ∧
      ts.map (fun t => (t.kind, t.literal)) = ls.map fun l => (l.kind, l.text) := by
  induction ls generalizing c with
  | nil =>
      refine ⟨[], c, .done c, ?_, rfl⟩
      rw [Cursor.atEnd_iff, Cursor.skipTrivia, hahead]
      rfl
  | cons l ls ih =>
      obtain ⟨first, others, htext, hbegins, -⟩ := l.spells.reads
      have hskip : c.skipTrivia.ahead = l.text.toList ++ spaced ls := by
        have hspaced : c.ahead = ' ' :: first :: (others ++ spaced ls) := by
          rw [hahead, spaced, List.flatMap_cons, htext]
          rfl
        rw [Cursor.skipTrivia, hspaced, hfresh, Trivia.skip]
        · rw [if_pos (by decide),
            Trivia.skip_begins hbegins (by simp) (apart_spaced ls).not_comment, htext]
          rfl
        all_goals simp
      obtain ⟨hopen, hkind, hliteral, hbehind, hfresh'⟩ :=
        Cursor.next_reads l.spells.reads (apart_spaced ls) hskip file
      obtain ⟨ts, c', hts, hend, hmap⟩ := ih hbehind hfresh'
      refine ⟨_, c', .token hopen hts, hend, ?_⟩
      rw [List.map_cons, List.map_cons, hmap, hkind, hliteral, String.ofList_toList]

theorem toList_joined (l : Spelling) (ls : List Spelling) :
    (" ".intercalate ((l :: ls).map text)).toList = l.text.toList ++ spaced ls := by
  induction ls generalizing l with
  | nil => simp [spaced]
  | cons l' ls ih =>
      have hrest := ih l'
      rw [String.toList_intercalate, List.map_cons, List.map_cons] at hrest
      rw [String.toList_intercalate, List.map_cons, List.map_cons, List.map_cons, List.map_cons,
        List.intercalate_cons_cons, hrest]
      simp [spaced]

end Spelling

/-- Tokens that are printed with a space between them are read back, each with its kind. A number
sign in front of all others would begin a directive. -/
theorem tokens_joined (file : String) (ls : List Spelling) (h : ∀ l ∈ ls.head?, l.text ≠ "#") :
    (tokens (" ".intercalate (ls.map Spelling.text)) file).map (fun t => (t.kind, t.literal)) =
      (ls.map fun l => (l.kind, l.text)) ++ [(.endOfInput, "")] := by
  have hscan : ∃ ts c', Scans file (.ofText (" ".intercalate (ls.map Spelling.text)).toList) ts c' ∧
      c'.AtEnd file ∧ ts.map (fun t => (t.kind, t.literal)) = ls.map fun l => (l.kind, l.text) := by
    cases ls with
    | nil => exact ⟨[], _, .done _, Cursor.atEnd_iff.mpr rfl, rfl⟩
    | cons l ls =>
        obtain ⟨first, others, htext, hbegins, -⟩ := l.spells.reads
        have hfirst : first ≠ '#' := by
          rintro rfl
          rw [hbegins.alone (.inr rfl)] at htext
          exact h l rfl (String.toList_inj.mp htext)
        rw [Spelling.toList_joined]
        have hskip : (Cursor.ofText (l.text.toList ++ Spelling.spaced ls)).skipTrivia.ahead =
            l.text.toList ++ Spelling.spaced ls := by
          rw [htext, List.cons_append, Cursor.skipTrivia, Cursor.ofText,
            Trivia.skip_begins hbegins (fun _ => hfirst)
              (Spelling.apart_spaced ls).not_comment]
        obtain ⟨hopen, hkind, hliteral, hbehind, hfresh⟩ :=
          Cursor.next_reads l.spells.reads (Spelling.apart_spaced ls) hskip file
        obtain ⟨ts, c', hts, hend, hmap⟩ := Spelling.scans_spaced file ls hbehind hfresh
        refine ⟨_, c', .token hopen hts, hend, ?_⟩
        rw [List.map_cons, List.map_cons, hmap, hkind, hliteral, String.ofList_toList]
  obtain ⟨ts, c, hts, hend, hmap⟩ := hscan
  have htext := (TokenStream.ofText_iff file (" ".intercalate (ls.map Spelling.text))
    ⟨ts, (c.next file).1⟩).mpr ⟨c, hts, hend, rfl⟩
  have hkind : (c.next file).1.kind = .endOfInput := by
    simpa [Cursor.AtEnd, Token.isEnd] using hend
  rw [tokens, htext, TokenStream.toList, List.map_append, hmap, List.map_singleton, hkind,
    Cursor.literal_of_atEnd hend]

/-- A word in mixed case, a sign that could begin a directive, and an open fraction. -/
theorem tokens_joined_condition :
    (∀ l ∈ ([⟨.keyword .kwIf, "iF", .keyword (s := "If") (by decide) (by decide)⟩,
      ⟨.operator .notEqual, "#", .operator (s := "#") (by decide) (by decide)⟩,
      ⟨.float, "1.", @Lexeme.Spells.openFloat ['1'] ⟨by simp, by simp⟩⟩] : List Spelling).head?,
        l.text ≠ "#") ∧
      (tokens "iF # 1." "t.prw").map (fun t => (t.kind, t.literal)) =
        [(.keyword .kwIf, "iF"), (.operator .notEqual, "#"), (.float, "1."), (.endOfInput, "")] :=
  ⟨by simp, tokens_joined "t.prw"
    [⟨.keyword .kwIf, "iF", .keyword (s := "If") (by decide) (by decide)⟩,
      ⟨.operator .notEqual, "#", .operator (s := "#") (by decide) (by decide)⟩,
      ⟨.float, "1.", @Lexeme.Spells.openFloat ['1'] ⟨by simp, by simp⟩⟩] (by simp)⟩

end Clipper
