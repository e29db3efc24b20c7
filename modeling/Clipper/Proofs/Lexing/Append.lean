import Clipper.Proofs.Lexing.Word
import Clipper.Token.Literal
import Mathlib.Data.List.Find
import Mathlib.Data.List.TakeWhile

/-!
Texts put together. Behind the end of a line that is neither inside a string nor inside a
block comment the lexer begins anew: the tokens of what follows are the same, only placed
further on.
-/

namespace Clipper

/-- No word and no number goes on with such a character. -/
structure Lexeme.Stops (d : Char) : Prop where
  notWord : Lexeme.isWordPart d = false
  notDigit : d.isDigit = false
  notAlpha : d.isAlpha = false
  notPoint : d ≠ '.'
  notSlash : d ≠ '/'

theorem Lexeme.stops_newline : Lexeme.Stops '\n' where
  notWord := Lexeme.isWordPart_newline
  notDigit := by decide
  notAlpha := by decide
  notPoint := by decide
  notSlash := by decide

/-- Words and numbers of the first text do not go on in the second: a line of the first one
ends, or the second begins with a character that stops them. -/
def Parted (cs ds : List Char) : Prop := '\n' ∈ cs ∨ ∀ d ∈ ds.head?, Lexeme.Stops d

/-- The first text ends with the end of a line, or the second begins with one. -/
def Breaks (cs ds : List Char) : Prop := cs.getLast? = some '\n' ∨ ds.head? = some '\n'

theorem Breaks.parted {cs ds : List Char} (h : Breaks cs ds) : Parted cs ds := by
  refine h.imp List.mem_of_getLast? fun h d hd => ?_
  obtain rfl : '\n' = d := Option.some.inj (h.symm.trans hd)
  exact Lexeme.stops_newline

namespace Parted

variable {cs ds : List Char} {p : Char → Bool} {n : Nat}

theorem takeWhile (h : Parted cs ds) (hp : ∀ d, Lexeme.Stops d → p d = false) :
    (cs ++ ds).takeWhile p = cs.takeWhile p := by
  induction cs with
  | nil =>
      have h := h.resolve_left (by simp)
      cases ds with
      | nil => rfl
      | cons d ds => simp [hp d (h d rfl)]
  | cons c cs ih =>
      rw [List.cons_append, List.takeWhile_cons, List.takeWhile_cons]
      rcases h with h | h
      · rcases List.mem_cons.mp h with rfl | h
        · simp [hp _ Lexeme.stops_newline]
        · rw [ih (.inl h)]
      · rw [ih (.inr h)]

/-- Where the second text comes first its first character stops a word or a number. -/
theorem head_append (h : Parted cs ds) : cs.head? = none → ∀ d ∈ (cs ++ ds).head?, Lexeme.Stops d := by
  intro hnil
  obtain rfl := List.head?_eq_none_iff.mp hnil
  exact h.resolve_left (by simp)

theorem drop (h : Parted cs ds) (hmem : '\n' ∈ cs → '\n' ∈ cs.drop n) : Parted (cs.drop n) ds :=
  h.imp hmem id

end Parted

theorem mem_drop_takeWhile {α : Type} {p : α → Bool} {cs : List α} {c : α} (hc : c ∈ cs)
    (hp : p c = false) : c ∈ cs.drop (cs.takeWhile p).length := by
  rw [← List.takeWhile_append_dropWhile (p := p) (l := cs), List.mem_append] at hc
  have hdrop : cs.drop (cs.takeWhile p).length = cs.dropWhile p := by
    conv => lhs; arg 2; rw [← List.takeWhile_append_dropWhile (p := p) (l := cs)]
    exact List.drop_left
  rw [hdrop]
  exact hc.resolve_left fun h => by simpa [hp] using List.mem_takeWhile_imp h

namespace Lexeme

variable {c : Char} {cs ds : List Char}

theorem digitRun_le (cs : List Char) : digitRun cs ≤ cs.length :=
  (List.takeWhile_prefix _).length_le

theorem slashGroup?_le {n : Nat} (hn : slashGroup? cs = some n) : n ≤ cs.length := by
  unfold slashGroup? at hn
  split at hn
  · rename_i es
    split at hn
    · obtain rfl := Option.some.inj hn
      exact Nat.succ_le_succ (digitRun_le es)
    · cases hn
  · cases hn

theorem digitRun_append (h : Parted cs ds) : digitRun (cs ++ ds) = digitRun cs := by
  rw [digitRun, digitRun, h.takeWhile fun d hd => hd.notDigit]

theorem mem_drop_digitRun (h : '\n' ∈ cs) : '\n' ∈ cs.drop (digitRun cs) :=
  mem_drop_takeWhile h (by decide)

theorem beginsWithDigit_append (h : Parted cs ds) :
    beginsWithDigit (cs ++ ds) = beginsWithDigit cs := by
  cases cs with
  | nil =>
      have h := h.head_append rfl
      cases ds with
      | nil => rfl
      | cons d ds => exact (h d rfl).notDigit
  | cons c cs => rfl

theorem slashGroup?_append (h : Parted cs ds) : slashGroup? (cs ++ ds) = slashGroup? cs := by
  cases cs with
  | nil =>
      have h := h.head_append rfl
      cases ds with
      | nil => rfl
      | cons d ds => simp [slashGroup?, (h d rfl).notSlash]
  | cons c cs =>
      by_cases hc : c = '/'
      · subst hc
        have h : Parted cs ds := h.imp (by simp) id
        simp only [List.cons_append, slashGroup?]
        rw [beginsWithDigit_append h, digitRun_append h]
      · simp [slashGroup?, hc]

theorem mem_drop_slashGroup? {n : Nat} (h : '\n' ∈ cs) (hn : slashGroup? cs = some n) :
    '\n' ∈ cs.drop n := by
  unfold slashGroup? at hn
  split at hn
  · rename_i ds
    split at hn
    · obtain rfl := Option.some.inj hn
      have h : '\n' ∈ ds := by simpa using h
      simpa using mem_drop_digitRun h
    · cases hn
  · cases hn

theorem isAlphabetic_of_stops {d : Char} (h : Stops d) : Text.isAlphabetic d = false := by
  have := h.notWord
  simp only [isWordPart, Bool.or_eq_false_iff] at this
  exact this.1.1

theorem numberTail_append (h : Parted cs ds) : numberTail (cs ++ ds) = numberTail cs := by
  unfold numberTail
  rw [slashGroup?_append h]
  cases hn : slashGroup? cs with
  | some n =>
      have hrest : Parted (cs.drop n) ds := h.drop fun h => mem_drop_slashGroup? h hn
      simp only [List.drop_append_of_le_length (slashGroup?_le hn), slashGroup?_append hrest]
  | none =>
      rcases cs with _ | ⟨c, _ | ⟨d, cs⟩⟩
      · have h := h.head_append rfl
        cases ds with
        | nil => rfl
        | cons d ds => simp [(h d rfl).notPoint]
      · rcases h with h | h
        · obtain rfl : '\n' = c := by simpa using h
          rfl
        by_cases hc : c = '.'
        · subst hc
          cases ds with
          | nil => rfl
          | cons d ds => simp [(h d rfl).notDigit, isAlphabetic_of_stops (h d rfl)]
        · simp [hc]
      · by_cases hc : c = '.'
        · subst hc
          by_cases hd : d.isDigit = true
          · have hparted : Parted (d :: cs) ds := h.imp (by simp) id
            have := digitRun_append hparted
            simp_all
          · simp [hd]
        · simp [hc]

theorem number_append (h : Parted cs ds) : number (cs ++ ds) = number cs := by
  have hrest : Parted (cs.drop (digitRun cs)) ds := h.drop mem_drop_digitRun
  rw [number, number, digitRun_append h, List.drop_append_of_le_length (digitRun_le cs),
    numberTail_append hrest]

theorem dot_append (h : Parted cs ds) : dot (cs ++ ds) = dot cs := by
  have hletters : dottedLetters? (cs ++ ds) = dottedLetters? cs := by
    have hrest : Parted (cs.drop (cs.takeWhile Char.isAlpha).length) ds :=
      h.drop fun h => mem_drop_takeWhile h (by decide)
    have hhead : ((cs.drop (cs.takeWhile Char.isAlpha).length ++ ds).head? == some '.') =
        ((cs.drop (cs.takeWhile Char.isAlpha).length).head? == some '.') := by
      cases hd : cs.drop (cs.takeWhile Char.isAlpha).length with
      | nil =>
          have hstop := hrest.head_append (by rw [hd]; rfl)
          rw [hd, List.nil_append] at hstop
          cases ds with
          | nil => rfl
          | cons d ds => simpa using (hstop d rfl).notPoint
      | cons => rfl
    simp only [dottedLetters?, h.takeWhile fun d hd => hd.notAlpha,
      List.drop_append_of_le_length (List.takeWhile_prefix _).length_le, hhead]
  rw [dot, dot, beginsWithDigit_append h, digitRun_append h, hletters]

theorem word_append (h : Parted cs ds) : word (cs ++ ds) = word cs := by
  simp only [word, h.takeWhile fun d hd => hd.notWord]

/-- The second character stands behind the first one in some sign. -/
def glues (c d : Char) : Bool := symbols.any fun s => s.1.head? == some c && s.1.tail.contains d

theorem glues_newline (c : Char) : glues c '\n' = false := by
  have hall : ∀ s ∈ symbols, s.1.tail.contains '\n' = false := by decide
  refine List.any_eq_false.mpr fun s hs => ?_
  rw [hall s hs, Bool.and_false]
  exact Bool.false_ne_true

/-- No sign goes on over the end of a line, nor with a character that its first one is in no sign
with. -/
theorem symbol_append (h : '\n' ∈ c :: cs ∨ ∀ d ∈ ds.head?, glues c d = false) :
    symbol (c :: cs ++ ds) = symbol (c :: cs) := by
  have hall : ∀ s ∈ symbols, '\n' ∉ s.1 := by decide
  have hfind : symbols.find? (fun s => s.1.isPrefixOf (c :: cs ++ ds)) =
      symbols.find? (fun s => s.1.isPrefixOf (c :: cs)) := by
    refine List.find?_congr fun s hs => ?_
    rw [Bool.eq_iff_iff, List.isPrefixOf_iff_prefix, List.isPrefixOf_iff_prefix]
    refine ⟨fun hp => ?_, fun hp => hp.trans (List.prefix_append _ _)⟩
    refine (List.prefix_or_prefix_of_prefix hp (List.prefix_append (c :: cs) ds)).elim id ?_
    rintro ⟨more, hmore⟩
    cases more with
    | nil => simp [← hmore]
    | cons e more =>
        exfalso
        rcases h with h | h
        · exact hall s hs (hmore ▸ List.mem_append_left _ h)
        · -- The sign would have the first character of the second text in it.
          rw [← hmore, List.prefix_append_right_inj] at hp
          cases ds with
          | nil => simp at hp
          | cons d ds =>
              obtain rfl : e = d := (List.cons_prefix_cons.mp hp).1
              have hglues := List.any_eq_false.mp (h e rfl) s hs
              simp [← hmore] at hglues
  rw [symbol, symbol, hfind]

/-- A sign comes last, if anything that is no string and no word or number. -/
theorem read_append (hc : isDelimiter c = false) (h : Parted (c :: cs) ds)
    (hsymbol : '\n' ∈ c :: cs ∨ ∀ d ∈ ds.head?, glues c d = false) :
    read c (cs ++ ds) = read c cs := by
  simp only [read, hc, Bool.false_eq_true, if_false, ← List.cons_append, number_append h,
    word_append h, symbol_append hsymbol]
  split
  · rfl
  split
  · rename_i hpoint
    subst hpoint
    exact dot_append (h.imp (by simp) id)
  · rfl

/-! ### Where a token ends -/

theorem mem_drop_numberTail (h : '\n' ∈ cs) : '\n' ∈ cs.drop (numberTail cs).size := by
  fun_cases numberTail cs with
  | case1 _ n hn m hm =>
      rw [← List.drop_drop]
      exact mem_drop_slashGroup? (mem_drop_slashGroup? h hn) hm
  | case3 c ds =>
      have h : '\n' ∈ c :: ds := by simpa using h
      simpa using mem_drop_digitRun h
  | case5 c ds => simpa using h
  | case6 => simp at h
  | case2 | case4 | case7 => simpa using h

theorem mem_drop_dot (h : '\n' ∈ cs) : '\n' ∈ ('.' :: cs).drop (dot cs).size := by
  unfold dot
  split
  · simpa using mem_drop_digitRun h
  split
  · simpa using h
  rename_i letters hl
  split
  · simp only [dottedLetters?] at hl
    split at hl
    · rename_i hclosed
      obtain rfl := Option.some.inj hl
      have hrest : '\n' ∈ cs.drop (cs.takeWhile Char.isAlpha).length :=
        mem_drop_takeWhile h (by decide)
      cases hd : cs.drop (cs.takeWhile Char.isAlpha).length with
      | nil => simp [hd] at hrest
      | cons d rest =>
          have hpoint : d = '.' := by simp_all
          rw [hd, hpoint] at hrest
          have hmem : '\n' ∈ rest := by simpa using hrest
          have htail : cs.drop ((cs.takeWhile Char.isAlpha).length + 1) = rest := by
            rw [← List.drop_drop, hd]
            rfl
          simpa [htail] using hmem
    · cases hl
  · simpa using h

theorem mem_drop_symbol (h : '\n' ∈ cs) :
    '\n' ∈ (c :: cs).drop (symbol (c :: cs)).size := by
  have hall : ∀ s ∈ symbols, '\n' ∉ s.1 := by decide
  unfold symbol
  split
  · rename_i hs
    have hbegins := List.find?_some hs
    obtain ⟨rest, hrest⟩ := List.isPrefixOf_iff_prefix.mp hbegins
    have hmem : '\n' ∈ c :: cs := List.mem_cons_of_mem _ h
    rw [← hrest] at hmem ⊢
    simpa using (List.mem_append.mp hmem).resolve_left (hall _ (List.mem_of_find?_eq_some hs))
  · simpa using h

theorem mem_drop_read (hc : isDelimiter c = false) (h : '\n' ∈ cs) :
    '\n' ∈ (c :: cs).drop (read c cs).size := by
  have h' : '\n' ∈ c :: cs := List.mem_cons_of_mem _ h
  unfold read
  rw [if_neg (by simp [hc])]
  split
  · rw [number, ← List.drop_drop]
    exact mem_drop_numberTail (mem_drop_digitRun h')
  split
  · rename_i hpoint
    exact hpoint ▸ mem_drop_dot h
  split
  · exact mem_drop_takeWhile h' isWordPart_newline
  · exact mem_drop_symbol h

/-! ### Strings -/

open Literal

variable {d : Char}

/-- The character is no backslash, neither the last one nor one with another behind it. -/
theorem ne_backslash (hlast : c = '\\' → cs = [] → False)
    (hpair : ∀ c' cs', c = '\\' → cs = c' :: cs' → False) : c ≠ '\\' := by
  intro hc
  cases cs with
  | nil => exact hlast hc rfl
  | cons c' cs => exact hpair c' cs hc rfl

theorem stringBody_length_le (hd : d ≠ '\\') (cs : List Char) :
    (stringBody d cs).length ≤ stringLength d cs ∧ stringLength d cs ≤ cs.length := by
  fun_induction stringLength d cs with
  | case1 => simp [stringBody]
  | case2 => simp [stringBody, hd.symm]
  | case3 c cs ih => simp [stringBody, ih]
  | case4 cs => simp [stringBody]
  | case5 c cs _ _ hc ih => simp [stringBody, hc, ih]

/-- A string with a closing delimiter ends there. -/
theorem stringLength_append (hd : d ≠ '\\') (h : (stringBody d cs).length < stringLength d cs)
    (ds : List Char) : stringLength d (cs ++ ds) = stringLength d cs := by
  fun_induction stringLength d cs with
  | case1 => simp at h
  | case2 => simp [stringBody, hd.symm] at h
  | case3 c cs ih => simp_all [stringBody, stringLength]
  | case4 cs => simp [stringLength, hd]
  | case5 c cs hlast hpair hc ih =>
      have hc' : c ≠ '\\' := ne_backslash hlast hpair
      have h : (stringBody d cs).length < stringLength d cs := by simpa [stringBody, hc] using h
      simp [stringLength, hc, hc', ih h]

theorem take_stringLength (hd : d ≠ '\\') (h : (stringBody d cs).length < stringLength d cs) :
    ∃ as, cs.take (stringLength d cs) = as ++ [d] := by
  fun_induction stringLength d cs with
  | case1 => simp at h
  | case2 => simp [stringBody, hd.symm] at h
  | case3 c cs ih =>
      obtain ⟨as, has⟩ := ih (by simpa [stringBody] using h)
      exact ⟨'\\' :: c :: as, by simp [has]⟩
  | case4 cs => exact ⟨[], by simp⟩
  | case5 c cs _ _ hc ih =>
      obtain ⟨as, has⟩ := ih (by simpa [stringBody, hc] using h)
      exact ⟨c :: as, by simp [has]⟩

theorem stringBody_take (d : Char) (cs : List Char) :
    stringBody d (cs.take (stringLength d cs)) = stringBody d cs := by
  fun_induction stringLength d cs with
  | case1 => rfl
  | case2 => rfl
  | case3 c cs ih => simp [stringBody, ih]
  | case4 cs => simp [stringBody]
  | case5 c cs hlast hpair hc ih =>
      have hc' : c ≠ '\\' := ne_backslash hlast hpair
      simp [stringBody, hc, hc', ih]

/-- Splitting the text of a string finds what the lexer took for its body. -/
theorem stringParts_of_scanned {literal : String}
    (h : literal.toList = d :: cs.take (stringLength d cs)) :
    stringParts literal = (d, String.ofList (stringBody d cs)) := by
  rw [stringParts, h]
  simp only [stringBody_take]

theorem ne_of_isDelimiter (h : isDelimiter d = true) : d ≠ '\\' ∧ d ≠ '\n' := by
  constructor <;> rintro rfl <;> simp [isDelimiter] at h

theorem read_delimiter (h : isDelimiter c = true) (cs : List Char) :
    read c cs = ⟨.string, stringLength c cs + 1⟩ := by
  simp [read, h]

/-- A token ends within the text. -/
theorem size_read_le (c : Char) (cs : List Char) : (read c cs).size ≤ cs.length + 1 := by
  cases hc : isDelimiter c with
  | true =>
      rw [read_delimiter hc]
      exact Nat.succ_le_succ (stringBody_length_le (ne_of_isDelimiter hc).1 cs).2
  | false =>
      -- With a line end behind it the token is the same, and leaves the line end over.
      have hread : read c (cs ++ ['\n']) = read c cs :=
        read_append hc (.inr (by simp [stops_newline])) (.inr (by simp [glues_newline]))
      have hmem : '\n' ∈ (c :: (cs ++ ['\n'])).drop (read c (cs ++ ['\n'])).size :=
        mem_drop_read hc (by simp)
      rw [hread] at hmem
      have := List.length_pos_of_mem hmem
      simp only [List.length_drop, List.length_cons, List.length_append, List.length_nil] at this
      omega

/-- A token does not depend on what stands behind its line, or behind its closing delimiter if
it is a string. -/
theorem read_extended (h : Breaks cs ds)
    (hclosed : isDelimiter c = true → (stringBody c cs).length < stringLength c cs) :
    read c (cs ++ ds) = read c cs ∧ Breaks ((c :: cs).drop (read c cs).size) ds := by
  have hread : read c (cs ++ ds) = read c cs := by
    cases hc : isDelimiter c with
    | false =>
        refine read_append hc (h.parted.imp (List.mem_cons_of_mem c) id) ?_
        refine h.imp (fun h => List.mem_cons_of_mem c (List.mem_of_getLast? h)) fun h d hd => ?_
        obtain rfl : '\n' = d := Option.some.inj (h.symm.trans hd)
        exact glues_newline c
    | true =>
        obtain ⟨hslash, _⟩ := ne_of_isDelimiter hc
        rw [read_delimiter hc, read_delimiter hc, stringLength_append hslash (hclosed hc)]
  refine ⟨hread, h.imp (fun hlast => ?_) id⟩
  have hlast' : (c :: cs).getLast? = some '\n' := by simp [List.getLast?_cons, hlast]
  cases hc : isDelimiter c with
  | false =>
      rw [List.getLast?_drop, if_neg, hlast']
      have := List.length_pos_of_mem (mem_drop_read hc (List.mem_of_getLast? hlast))
      rw [List.length_drop] at this
      omega
  | true =>
      obtain ⟨hslash, hline⟩ := ne_of_isDelimiter hc
      rw [read_delimiter hc, List.drop_succ_cons, List.getLast?_drop, if_neg, hlast]
      intro hle
      obtain ⟨as, has⟩ := take_stringLength hslash (hclosed hc)
      rw [List.take_of_length_le hle] at has
      rw [has, List.getLast?_concat] at hlast
      exact hline (Option.some.inj hlast)

end Lexeme

namespace Trivia

/-- A block comment is open where the text ends. -/
def leavesBlock : Mode → Bool → List Char → Bool
  | .block, _, [] => true
  | _, _, [] => false
  | .line, fresh, c :: cs =>
      if c = '\n' then leavesBlock .blank true cs else leavesBlock .line fresh cs
  | .block, fresh, '*' :: '/' :: cs => leavesBlock .blank fresh cs
  | .block, fresh, c :: cs => leavesBlock .block (fresh || c == '\n') cs
  | .blank, fresh, '/' :: '/' :: cs => leavesBlock .line fresh cs
  | .blank, fresh, '&' :: '&' :: cs => leavesBlock .line fresh cs
  | .blank, fresh, '/' :: '*' :: cs => leavesBlock .block fresh cs
  | .blank, fresh, c :: cs =>
      if Text.isBlank c then leavesBlock .blank (fresh || c == '\n') cs
      else if c = '#' && fresh then leavesBlock .line fresh cs
      else false

variable {mode : Mode} {p : Place} {fresh : Bool} {text ds : List Char}

/-- A character that begins no comment. -/
theorem skip_single {c : Char} {cs : List Char} (hline : ∀ cs', c = '/' → cs = '/' :: cs' → False)
    (hline' : ∀ cs', c = '&' → cs = '&' :: cs' → False)
    (hblock : ∀ cs', c = '/' → cs = '*' :: cs' → False) :
    skip .blank p fresh (c :: cs) =
      if Text.isBlank c then skip .blank (p.step c) (fresh || c == '\n') cs
      else if c = '#' && fresh then skip .line (p.step c) fresh cs
      else ⟨p, fresh, c :: cs⟩ := by
  rw [skip] <;> assumption

/-- In front of a token the text behind it is not looked at. Behind a line that ends outside
of a block comment skipping begins anew. -/
theorem skip_append (hseam : Breaks text ds ∨ text = [] ∧ mode = .blank ∧ fresh = true)
    (hshut : (skip mode p fresh text).ahead = [] → leavesBlock mode fresh text = false) :
    skip mode p fresh (text ++ ds) =
      match (skip mode p fresh text).ahead with
      | [] => skip .blank (p.past text) true ds
      | c :: cs => ⟨(skip mode p fresh text).place, (skip mode p fresh text).fresh,
          c :: cs ++ ds⟩ := by
  have hnewline : ∀ (p : Place) (fresh : Bool) (cs : List Char),
      skip .blank p fresh ('\n' :: cs) = skip .blank (p.step '\n') true cs := by
    intro p fresh cs
    rw [skip_single (by simp) (by simp) (by simp), if_pos Text.isBlank_newline]
    simp
  have htail : ∀ {c : Char} {cs : List Char}, Breaks (c :: cs) ds →
      Breaks cs ds ∨ cs = [] ∧ c = '\n' := by
    rintro c (_ | ⟨d, cs⟩) (h | h)
    · exact .inr ⟨rfl, by simpa using h⟩
    · exact .inl (.inr h)
    · exact .inl (.inl (by simpa using h))
    · exact .inl (.inr h)
  have hsingle : ∀ {p : Place} {fresh : Bool} {c : Char} {cs : List Char},
      Breaks cs ds ∨ cs = [] ∧ c = '\n' →
      (∀ cs', c = '/' → cs = '/' :: cs' → False) → (∀ cs', c = '&' → cs = '&' :: cs' → False) →
      (∀ cs', c = '/' → cs = '*' :: cs' → False) →
      skip .blank p fresh (c :: cs ++ ds) =
        if Text.isBlank c then skip .blank (p.step c) (fresh || c == '\n') (cs ++ ds)
        else if c = '#' && fresh then skip .line (p.step c) fresh (cs ++ ds)
        else ⟨p, fresh, c :: (cs ++ ds)⟩ := by
    rintro p fresh c (_ | ⟨d, cs⟩) hcs h h' h''
    · rcases hcs with (hcs | hcs) | ⟨-, rfl⟩
      · simp at hcs
      · obtain ⟨ds, rfl⟩ := List.head?_eq_some_iff.mp hcs
        exact skip_single (by simp) (by simp) (by simp)
      · exact skip_single (by simp) (by simp) (by simp)
    · exact skip_single (by simp_all) (by simp_all) (by simp_all)
  fun_induction skip mode p fresh text with
  | case1 mode p fresh =>
      rcases hseam with (h | h) | ⟨-, rfl, rfl⟩
      · simp at h
      · obtain ⟨ds, rfl⟩ := List.head?_eq_some_iff.mp h
        cases mode with
        | blank => exact (hnewline p fresh ds).trans (hnewline p true ds).symm
        | line =>
            refine Eq.trans ?_ (hnewline p true ds).symm
            simp [skip]
        | block => simp [leavesBlock] at hshut
      · rfl
  | case2 p fresh cs ih =>
      have := ih ((htail (hseam.resolve_right (by simp))).imp id fun h => ⟨h.1, rfl, rfl⟩)
        (by simpa [leavesBlock] using hshut)
      simpa [skip] using this
  | case3 p fresh c cs hc ih =>
      have := ih ((htail (hseam.resolve_right (by simp))).imp id fun h => absurd h.2 hc)
        (by simpa [leavesBlock, hc] using hshut)
      simpa [skip, hc] using this
  | case4 p fresh cs ih =>
      have hcs := (htail (hseam.resolve_right (by simp))).resolve_right (by simp)
      have := ih ((htail hcs).imp id fun h => by simp at h) (by simpa [leavesBlock] using hshut)
      simpa [skip] using this
  | case5 p fresh c cs hpair ih =>
      rcases htail (hseam.resolve_right (by simp)) with hcs | ⟨rfl, rfl⟩
      · have := ih (.inl hcs) (by simpa [leavesBlock, hpair] using hshut)
        cases cs with
        | nil => simp [skip, leavesBlock] at hshut
        | cons d cs =>
            rw [List.cons_append, skip]
            · simpa using this
            · rintro _ rfl h
              obtain ⟨rfl, -⟩ := List.cons.inj h
              exact hpair _ rfl rfl
      · simp [skip, leavesBlock] at hshut
  | case6 p fresh cs ih | case7 p fresh cs ih | case8 p fresh cs ih =>
      have hcs := (htail (hseam.resolve_right (by simp))).resolve_right (by simp)
      have := ih ((htail hcs).imp id fun h => by simp at h) (by simpa [leavesBlock] using hshut)
      simpa [skip] using this
  | case9 p fresh c cs hline hline' hblock hblank ih =>
      have hcs := htail (hseam.resolve_right (by simp))
      have := ih (hcs.imp id fun h => ⟨h.1, rfl, by simp [h.2]⟩)
        (by simpa [leavesBlock, hline, hline', hblock, hblank] using hshut)
      rw [hsingle hcs hline hline' hblock, if_pos hblank]
      simpa using this
  | case10 p fresh c cs hline hline' hblock hblank hmark ih =>
      have hcs := (htail (hseam.resolve_right (by simp))).resolve_right fun h => by simp_all
      have := ih (.inl hcs) (by simpa [leavesBlock, hline, hline', hblock, hblank, hmark] using hshut)
      rw [hsingle (.inl hcs) hline hline' hblock, if_neg hblank, if_pos hmark]
      simpa using this
  | case11 p fresh c cs hline hline' hblock hblank hmark =>
      have hcs := (htail (hseam.resolve_right (by simp))).resolve_right fun h => by
        simp [h.2, Text.isBlank_newline] at hblank
      rw [hsingle (.inl hcs) hline hline' hblock, if_neg hblank, if_neg hmark]
      rfl

end Trivia

/-- A string without a closing delimiter. It takes the rest of the text. -/
def Token.isUnclosed (t : Token) : Bool :=
  t.kind == .string && (Literal.stringParts t.literal).2.length + 1 == t.literal.length

namespace Cursor

variable {file : String} {c : Cursor} {ds : List Char}

/-- With more text behind. -/
def extended (ds : List Char) (c : Cursor) : Cursor := { c with ahead := c.ahead ++ ds }

/-- The string in front of a cursor. -/
theorem next_delimiter {d : Char} {text : List Char} (hs : c.skipTrivia.ahead = d :: text)
    (hd : Lexeme.isDelimiter d = true) (file : String) :
    (c.next file).1 =
      ⟨.string, String.ofList (d :: text.take (Lexeme.stringLength d text)),
        ⟨c.skipTrivia.place.offset, c.skipTrivia.place.offset +
          Place.byteSize (d :: text.take (Lexeme.stringLength d text))⟩,
        c.skipTrivia.place.line, c.skipTrivia.place.column, file⟩ := by
  simp only [next, hs, Lexeme.read_delimiter hd, List.take_succ_cons, Place.past_offset]

theorem closed_of_isDelimiter {first : Char} {others : List Char}
    (hs : c.skipTrivia.ahead = first :: others) (hclosed : (c.next file).1.isUnclosed = false)
    (hc : Lexeme.isDelimiter first = true) :
    (Literal.stringBody first others).length < Lexeme.stringLength first others := by
  obtain ⟨hle, htaken⟩ :=
    Lexeme.stringBody_length_le (Lexeme.ne_of_isDelimiter hc).1 (d := first) others
  have hread := next_delimiter hs hc file
  have hbody : (Literal.stringParts (c.next file).1.literal).2.length =
      (Literal.stringBody first others).length := by
    rw [Lexeme.stringParts_of_scanned (by rw [hread, String.toList_ofList]), String.length_ofList]
  have hlength : (c.next file).1.literal.length = Lexeme.stringLength first others + 1 := by
    rw [hread]
    simp [Nat.min_eq_left htaken, Nat.add_comm]
  have hkind : (c.next file).1.kind = .string := by rw [hread]
  refine Nat.lt_of_le_of_ne hle fun heq => ?_
  simp [Token.isUnclosed, hkind, hbody, hlength, heq] at hclosed

/-- The next token is the same if more text follows behind the end of a line. -/
theorem next_extended (hbreaks : Breaks c.ahead ds) (h : ¬c.AtEnd file)
    (hclosed : (c.next file).1.isUnclosed = false) :
    (c.extended ds).next file = ((c.next file).1, (c.next file).2.extended ds) ∧
      Breaks (c.next file).2.ahead ds := by
  have hopen : c.skipTrivia.ahead ≠ [] := fun hnil => h (atEnd_iff.mpr hnil)
  obtain ⟨gap, htext, -⟩ := c.next_eq file
  obtain ⟨first, others, hs⟩ := List.exists_cons_of_ne_nil hopen
  have hskip : (c.extended ds).skipTrivia = c.skipTrivia.extended ds := by
    have hskip : Trivia.skip .blank c.place c.fresh (c.ahead ++ ds) = _ :=
      Trivia.skip_append (.inl hbreaks) fun hnil => absurd hnil hopen
    change Trivia.skip .blank c.place c.fresh (c.ahead ++ ds) = _
    rw [hskip]
    change (match c.skipTrivia.ahead with | [] => _ | c' :: cs => _) = _
    rw [hs, extended, hs]
    rfl
  have hothers : Breaks others ds := by
    refine hbreaks.imp (fun hlast => ?_) id
    rw [htext, hs] at hlast
    cases others with
    | nil =>
        obtain rfl : first = '\n' := by simpa using hlast
        have := Trivia.isBlank_of_skip hs
        simp [Text.isBlank_newline] at this
    | cons => simpa [List.getLast?_append] using hlast
  obtain ⟨hread, hrest⟩ := Lexeme.read_extended hothers (closed_of_isDelimiter hs hclosed)
  have hsize : (Lexeme.read first others).size ≤ (first :: others).length :=
    Lexeme.size_read_le first others
  have htake : (first :: others ++ ds).take (Lexeme.read first others).size =
      (first :: others).take (Lexeme.read first others).size :=
    List.take_append_of_le_length hsize
  have hdrop : (first :: others ++ ds).drop (Lexeme.read first others).size =
      (first :: others).drop (Lexeme.read first others).size ++ ds :=
    List.drop_append_of_le_length hsize
  rw [List.cons_append] at htake hdrop
  unfold next
  rw [hskip]
  simp [extended, hs, hread, htake, hdrop, hrest]

end Cursor

/-! ### Places further on -/

/-- A place in a text, as a place behind the lines of another text. -/
def Place.behind (cs : List Char) (p : Place) : Place :=
  ⟨byteSize cs + p.offset, cs.count '\n' + p.line, p.column⟩

/-- A token of a text, as a token behind the lines of another text. -/
def Token.behind (cs : List Char) (t : Token) : Token :=
  { t with
    span := ⟨Place.byteSize cs + t.span.start, Place.byteSize cs + t.span.stop⟩
    line := cs.count '\n' + t.line }

def Cursor.behind (cs : List Char) (c : Cursor) : Cursor := { c with place := c.place.behind cs }

namespace Place

theorem step_behind (cs : List Char) (p : Place) (c : Char) :
    (p.behind cs).step c = (p.step c).behind cs := by
  unfold step behind
  split <;> simp [Nat.add_assoc]

theorem past_behind (cs : List Char) (p : Place) (ds : List Char) :
    (p.behind cs).past ds = (p.past ds).behind cs := by
  induction ds generalizing p with
  | nil => rfl
  | cons d ds ih => rw [past_cons, past_cons, step_behind, ih]

/-- A new line begins behind the end of a line. -/
theorem past_start {cs : List Char} (h : cs.getLast? = some '\n') :
    start.past cs = start.behind cs := by
  obtain ⟨ds, rfl⟩ := List.getLast?_eq_some_iff.mp h
  have hoffset := past_offset start (ds ++ ['\n'])
  have hline := past_line start (ds ++ ['\n'])
  have hcolumn : (start.past (ds ++ ['\n'])).column = 1 := by
    rw [past_append]
    rfl
  generalize start.past (ds ++ ['\n']) = p at *
  obtain ⟨offset, line, column⟩ := p
  simp_all [behind, start, Nat.add_comm]

end Place

namespace Trivia

theorem skip_behind (cs : List Char) (mode : Mode) (p : Place) (fresh : Bool) (text : List Char) :
    skip mode (p.behind cs) fresh text = (skip mode p fresh text).behind cs := by
  fun_induction skip mode p fresh text <;> simp_all [skip, Place.step_behind, Cursor.behind]

end Trivia

namespace Cursor

variable {file : String} {c c' : Cursor}

theorem next_behind (cs : List Char) (c : Cursor) (file : String) :
    (c.behind cs).next file = ((c.next file).1.behind cs, (c.next file).2.behind cs) := by
  have hskip : (c.behind cs).skipTrivia = c.skipTrivia.behind cs :=
    Trivia.skip_behind cs .blank c.place c.fresh c.ahead
  unfold next
  rw [hskip]
  cases h : c.skipTrivia.ahead with
  | nil => simp [behind, h, Token.behind, Place.behind]
  | cons first others =>
      have hpast := Place.past_behind cs c.skipTrivia.place
        ((first :: others).take (Lexeme.read first others).size)
      rw [Place.behind, Place.behind] at hpast
      simp [behind, h, Token.behind, Place.behind, hpast]

end Cursor

theorem Scans.behind {file : String} {c c' : Cursor} {ts : List Token} (h : Scans file c ts c')
    (cs : List Char) : Scans file (c.behind cs) (ts.map (Token.behind cs)) (c'.behind cs) := by
  induction h with
  | done c => exact .done _
  | @token c c' ts hend _ ih =>
      have hnext := c.next_behind cs file
      rw [List.map_cons, show (c.next file).1.behind cs = ((c.behind cs).next file).1 by rw [hnext]]
      refine .token (fun h => hend ?_) (by rw [hnext]; exact ih)
      rw [Cursor.AtEnd, hnext] at h
      exact h

/-! ### Lines of tokens -/

namespace Cursor

variable {file : String} {c : Cursor}

theorem next_past (h : ¬c.AtEnd file) :
    (c.next file).2.place.past (c.next file).2.ahead = c.place.past c.ahead ∧
      (c.next file).1.endLine = (c.next file).2.place.line := by
  obtain ⟨gap, htext, -, hplace, hnext⟩ := c.next_eq file
  cases hs : c.skipTrivia.ahead with
  | nil => exact absurd (atEnd_iff.mpr hs) h
  | cons first others =>
      simp only [hs] at hnext
      obtain ⟨-, hliteral, hrest⟩ := hnext
      rw [hrest]
      refine ⟨?_, ?_⟩
      · rw [← Place.past_append, List.take_append_drop, ← Place.past_append, htext, hs]
      · have hline : (c.next file).1.line = (c.place.past gap).line := congrArg Place.line hplace
        rw [Token.endLine, hliteral, hline, String.toList_ofList]
        exact (Place.past_line _ _).symm

theorem line_lt (hlast : c.ahead.getLast? = some '\n') :
    c.place.line < (c.place.past c.ahead).line := by
  have := List.count_pos_iff.mpr (List.mem_of_getLast? hlast)
  rw [Place.past_line]
  omega

end Cursor

namespace Scans

variable {file : String} {c c' : Cursor} {ts : List Token}

/-- A cursor ends up where its text does. -/
theorem past (h : Scans file c ts c') : c'.place.past c'.ahead = c.place.past c.ahead := by
  induction h with
  | done => rfl
  | token hend _ ih => rw [ih, (Cursor.next_past hend).1]

/-- Up to the end of a line the tokens are the same if more text follows. -/
theorem extended (h : Scans file c ts c') {ds : List Char} (hbreaks : Breaks c.ahead ds)
    (hclosed : ∀ t ∈ ts, t.isUnclosed = false) :
    Scans file (c.extended ds) ts (c'.extended ds) ∧ Breaks c'.ahead ds := by
  induction h with
  | done c => exact ⟨.done _, hbreaks⟩
  | @token c c' ts hend _ ih =>
      rw [List.forall_mem_cons] at hclosed
      obtain ⟨hnext, hrest⟩ := c.next_extended hbreaks hend hclosed.1
      obtain ⟨hscans, hbreaks'⟩ := ih hrest hclosed.2
      refine ⟨?_, hbreaks'⟩
      rw [show (c.next file).1 = ((c.extended ds).next file).1 by rw [hnext]]
      refine .token (fun h => hend ?_) (by rw [hnext]; exact hscans)
      rw [Cursor.AtEnd, hnext] at h
      exact h

/-- In front of the end of a line all tokens end on earlier lines. -/
theorem endLine_lt (h : Scans file c ts c') (hlast : c.ahead.getLast? = some '\n')
    (hclosed : ∀ t ∈ ts, t.isUnclosed = false) :
    ∀ t ∈ ts, t.endLine < (c.place.past c.ahead).line := by
  induction h with
  | done c => simp
  | @token c c' ts hend _ ih =>
      rw [List.forall_mem_cons] at hclosed
      have hbreaks : Breaks c.ahead [] := .inl hlast
      have hrest := (c.next_extended hbreaks hend hclosed.1).2.resolve_right (by simp)
      obtain ⟨hpast, hline⟩ := c.next_past hend
      have hlines := ih hrest hclosed.2
      rw [hpast] at hlines
      refine List.forall_mem_cons.mpr ⟨?_, hlines⟩
      rw [hline, ← hpast]
      exact Cursor.line_lt hrest

/-- No token ends behind the last line. -/
theorem endLine_le (h : Scans file c ts c') :
    ∀ t ∈ ts, t.endLine ≤ (c.place.past c.ahead).line := by
  induction h with
  | done c => simp
  | token hend _ ih =>
      obtain ⟨hpast, hline⟩ := Cursor.next_past hend
      rw [hpast] at ih
      refine List.forall_mem_cons.mpr ⟨?_, ih⟩
      rw [hline, ← hpast, Place.past_line]
      exact Nat.le_add_right _ _

end Scans

/-! ### Texts put together -/

/-- The cursor behind the last token, if there are at most `n`. -/
def Cursor.drained (file : String) : Nat → Cursor → Cursor
  | 0, c => c
  | n + 1, c => if (c.next file).1.isEnd then c else drained file n (c.next file).2

theorem Scans.drained_eq {file : String} {c c' : Cursor} {ts : List Token}
    (h : Scans file c ts c') (hend : c'.AtEnd file) {n : Nat} (hn : c.ahead.length ≤ n) :
    c.drained file n = c' := by
  induction h generalizing n with
  | done c =>
      have hend : (c.next file).1.isEnd = true := hend
      cases n <;> simp [Cursor.drained, hend]
  | @token c c' ts hc _ ih =>
      have hlt := (Cursor.next_consumes hc).1
      have hopen : (c.next file).1.isEnd = false := by simpa [Cursor.AtEnd] using hc
      cases n with
      | zero => omega
      | succ n => simpa [Cursor.drained, hopen] using ih hend (n := n) (by omega)

/-- The text ends neither inside a string nor inside a block comment. -/
structure EndsOutside (file source : String) : Prop where
  strings : ∀ t ∈ (TokenStream.ofText file source).body, t.isUnclosed = false
  comments :
    let c := (Cursor.ofText source.toList).drained file source.toList.length
    Trivia.leavesBlock .blank c.fresh c.ahead = false

/-- The text ends with the end of a line, which is neither inside a string nor inside a block
comment. -/
structure EndsLine (file source : String) : Prop where
  newline : source.toList.getLast? = some '\n'
  strings : ∀ t ∈ (TokenStream.ofText file source).body, t.isUnclosed = false
  comments :
    let c := (Cursor.ofText source.toList).drained file source.toList.length
    Trivia.leavesBlock .blank c.fresh c.ahead = false

theorem EndsLine.outside {file source : String} (h : EndsLine file source) :
    EndsOutside file source := ⟨h.strings, h.comments⟩

/-- The cursor behind the last token of a text, and what it skips if more text follows. -/
theorem EndsOutside.exists_drained {file p q : String} (h : EndsOutside file p)
    (hbreaks : Breaks p.toList q.toList) :
    ∃ c : Cursor, Scans file (.ofText (p ++ q).toList) (TokenStream.ofText file p).body c ∧
      c.skipTrivia = Trivia.skip .blank (Place.start.past p.toList) true q.toList := by
  obtain ⟨c, hts, hend, hlast⟩ := (TokenStream.ofText_iff file p _).mp rfl
  obtain ⟨hscans, hbehind⟩ := hts.extended hbreaks h.strings
  refine ⟨c.extended q.toList, ?_, ?_⟩
  · simpa [Cursor.extended, Cursor.ofText] using hscans
  · have hdrained : (Cursor.ofText p.toList).drained file p.toList.length = c :=
      hts.drained_eq hend (Nat.le_refl _)
    have hshut : Trivia.leavesBlock .blank c.fresh c.ahead = false := hdrained ▸ h.comments
    have hnil : (Trivia.skip .blank c.place c.fresh c.ahead).ahead = [] := Cursor.atEnd_iff.mp hend
    have hskip := Trivia.skip_append (p := c.place) (.inl hbehind) fun _ => hshut
    rw [hnil] at hskip
    refine hskip.trans ?_
    change Trivia.skip .blank (c.place.past c.ahead) _ _ = _
    rw [hts.past]
    rfl

/-- Where skipping goes on as at the beginning of a text, so do the tokens. -/
theorem TokenStream.ofText_of_drained {file source q : String} {ts : List Token} {c : Cursor}
    {before : List Char} (hts : Scans file (.ofText source.toList) ts c)
    (hskip : c.skipTrivia = ((Cursor.ofText q.toList).behind before).skipTrivia) :
    ofText file source =
      ⟨ts ++ (ofText file q).body.map (Token.behind before),
        (ofText file q).last.behind before⟩ := by
  have hnext : c.next file = ((Cursor.ofText q.toList).behind before).next file := by
    unfold Cursor.next
    rw [hskip]
  obtain ⟨c', hq, hend, hlast⟩ := (ofText_iff file q _).mp rfl
  have hq := hq.behind before
  have hlast : ((c'.behind before).next file).1 = (ofText file q).last.behind before := by
    rw [Cursor.next_behind, hlast]
  have hend : (c'.behind before).AtEnd file := by
    rw [Cursor.AtEnd, Cursor.next_behind]
    exact hend
  refine (ofText_iff file _ _).mpr ?_
  generalize (ofText file q).body.map (Token.behind before) = us at *
  generalize c'.behind before = d at *
  cases hq with
  | done =>
      refine ⟨c, by simpa using hts, ?_, hnext ▸ hlast⟩
      rw [Cursor.AtEnd, hnext]
      exact hend
  | token hopen hus =>
      refine ⟨d, hts.append ?_, hend, hlast⟩
      rw [← hnext] at hus ⊢
      refine .token (fun h => hopen ?_) hus
      rw [Cursor.AtEnd, hnext] at h
      exact h

/-- The tokens of two texts put together. -/
theorem TokenStream.ofText_append {file p : String} (h : EndsLine file p) (q : String) :
    ofText file (p ++ q) =
      ⟨(ofText file p).body ++ (ofText file q).body.map (Token.behind p.toList),
        (ofText file q).last.behind p.toList⟩ := by
  obtain ⟨c, hp, hskip⟩ := h.outside.exists_drained (q := q) (.inl h.newline)
  rw [Place.past_start h.newline] at hskip
  exact ofText_of_drained hp hskip

namespace TokenStream

/-- The end token stands behind the whole text, the others before that. -/
theorem ofText_start (file source : String) :
    (ofText file source).last.span.start = Place.byteSize source.toList ∧
      ∀ t ∈ (ofText file source).body, t.span.start < Place.byteSize source.toList := by
  have hlast : (ofText file source).last.span.start = Place.byteSize source.toList := by
    obtain ⟨c, hts, hend, hlast⟩ := (ofText_iff file source _).mp rfl
    obtain ⟨gap, htext, -, hplace, -⟩ := c.next_eq file
    rw [Cursor.atEnd_iff.mp hend, List.append_nil] at htext
    rw [← htext, hts.past, hlast] at hplace
    have hoffset : (ofText file source).last.span.start = _ := congrArg Place.offset hplace
    rw [hoffset, Place.past_offset]
    exact Nat.zero_add _
  refine ⟨hlast, fun t ht => ?_⟩
  have hpairs := List.pairwise_append.mp (ofText_pairwise file source)
  exact hlast ▸ (hpairs.2.2 t ht _ (List.mem_singleton.mpr rfl)).offset_lt

theorem one_le_line (file source : String) : ∀ t ∈ (ofText file source).toList, 1 ≤ t.line := by
  obtain ⟨_, hts, _, hlast⟩ := (ofText_iff file source _).mp rfl
  rw [toList, ← hlast]
  intro t ht
  obtain ⟨gap, hgap⟩ := hts.pairwise_before.2 t ht
  have hline : t.line = _ := congrArg Place.line hgap
  rw [hline, Place.past_line]
  exact Nat.le_add_right 1 _

theorem endLine_le (file p : String) :
    ∀ t ∈ (ofText file p).body, t.endLine ≤ 1 + p.toList.count '\n' := by
  obtain ⟨_, hts, _, _⟩ := (ofText_iff file p _).mp rfl
  intro t ht
  have hle := hts.endLine_le t ht
  rwa [Place.past_line] at hle

theorem endLine_lt {file p : String} (h : EndsLine file p) :
    ∀ t ∈ (ofText file p).body, t.endLine < 1 + p.toList.count '\n' := by
  obtain ⟨_, hts, _, _⟩ := (ofText_iff file p _).mp rfl
  intro t ht
  have := hts.endLine_lt h.newline h.strings t ht
  rwa [Place.past_line] at this

end TokenStream

end Clipper
