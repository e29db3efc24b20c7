import Clipper.Proofs.Lexing.Onward
import Clipper.Proofs.Lexing.Shape

/-!
Dates and divisions. Digits in front of a slash and a digit may begin a date. The lexer tries to
read one character by character, and goes back behind the first digits if the third group is
missing. Then the digits are a number, the slash is an operator, and the text from the slash on is
read as a text of its own.
-/

namespace Clipper

namespace Lexeme

theorem ne_newline_of_isDigit {c : Char} (hc : c.isDigit = true) : c ≠ '\n' := by
  rintro rfl
  cases hc

/-- Behind the second group of digits the third one decides. -/
theorem numberTail_of_group {cs : List Char} {n : Nat} (hn : slashGroup? cs = some n) :
    numberTail cs =
      match slashGroup? (cs.drop n) with
      | some m => ⟨.date, n + m⟩
      | none => ⟨.integer, 0⟩ := by
  unfold numberTail
  cases hm : slashGroup? (cs.drop n) with
  | some m => simp only [hn, hm]
  | none => simp only [hn, hm]

end Lexeme

/-! ### Characters one by one -/

namespace Cursor

/-- Takes a character. Behind the end of a line the next line is fresh. -/
def advance (c : Cursor) : Cursor :=
  match c.ahead with
  | [] => c
  | d :: ds => ⟨c.place.step d, c.fresh || d == '\n', ds⟩

/-- Takes characters of the text as long as `p` holds. -/
def eat (p : Char → Bool) : Place → Bool → List Char → Cursor
  | q, fresh, [] => ⟨q, fresh, []⟩
  | q, fresh, c :: cs =>
      if p c then eat p (q.step c) (fresh || c == '\n') cs else ⟨q, fresh, c :: cs⟩

def eatDigits (c : Cursor) : Cursor := eat Char.isDigit c.place c.fresh c.ahead

/-- A slash and a digit come next. -/
def atGroup (c : Cursor) : Bool :=
  match c.ahead with
  | '/' :: d :: _ => d.isDigit
  | _ => false

/-- Tries to take two more groups of a date. On failure the place and the text are those from
before, but not what else may have changed. -/
def scanDate (c : Cursor) : Bool × Cursor :=
  let moved := c.advance.eatDigits
  if moved.atGroup then (true, moved.advance.eatDigits)
  else (false, { moved with place := c.place, ahead := c.ahead })

/-- Takes what belongs to a number behind its first digits. -/
def scanTail (c : Cursor) : TokenKind × Cursor :=
  match c.ahead with
  | '/' :: d :: _ =>
      if d.isDigit then
        let (found, c) := c.scanDate
        (if found then .date else .integer, c)
      else (.integer, c)
  | '.' :: d :: _ =>
      if d.isDigit then (.float, c.advance.eatDigits)
      else if Text.isAlphabetic d then (.integer, c)
      else (.float, c.advance)
  | ['.'] => (.float, c.advance)
  | _ => (.integer, c)

/-- Takes a number whose first digit has been taken. -/
def scanNumber (c : Cursor) : TokenKind × Cursor := c.eatDigits.scanTail

/-- Behind so many characters of its line. -/
def taken (c : Cursor) (n : Nat) : Cursor :=
  ⟨c.place.past (c.ahead.take n), c.fresh, c.ahead.drop n⟩

variable {c : Cursor}

theorem taken_taken (c : Cursor) (m n : Nat) : (c.taken m).taken n = c.taken (m + n) := by
  simp only [taken, List.take_add, Place.past_append, List.drop_drop]

theorem taken_zero (c : Cursor) : c.taken 0 = c := rfl

theorem advance_eq {d : Char} {ds : List Char} (hs : c.ahead = d :: ds) (hd : d ≠ '\n') :
    c.advance = c.taken 1 := by
  have hline : (d == '\n') = false := beq_eq_false_iff_ne.mpr hd
  simp [advance, taken, hs, hline]

/-- The digits in front of a cursor are on one line. -/
theorem eatDigits_eq (c : Cursor) : c.eatDigits = c.taken (Lexeme.digitRun c.ahead) := by
  obtain ⟨p, fresh, text⟩ := c
  show eat Char.isDigit p fresh text = _
  induction text generalizing p with
  | nil => rfl
  | cons c cs ih =>
      rw [eat]
      cases hc : c.isDigit with
      | false => simp [Lexeme.digitRun, hc, taken]
      | true =>
          have hline : (c == '\n') = false :=
            beq_eq_false_iff_ne.mpr (Lexeme.ne_newline_of_isDigit hc)
          rw [if_pos rfl, hline, Bool.or_false, ih, Lexeme.digitRun_cons hc]
          rfl

theorem atGroup_eq (c : Cursor) : c.atGroup = (Lexeme.slashGroup? c.ahead).isSome := by
  unfold atGroup Lexeme.slashGroup?
  split
  · rename_i d ds hs
    rw [hs]
    cases hd : d.isDigit <;> simp [Lexeme.beginsWithDigit, hd]
  · rename_i hother
    split
    · rename_i cs hs
      cases cs with
      | nil => rfl
      | cons d ds => exact absurd hs (hother d ds)
    · rfl

/-- A slash and the digits behind it, taken one by one. -/
theorem advance_eatDigits {n : Nat} (h : Lexeme.slashGroup? c.ahead = some n) :
    c.advance.eatDigits = c.taken n := by
  unfold Lexeme.slashGroup? at h
  split at h
  · rename_i cs hs
    split at h
    · obtain rfl := Option.some.inj h
      have hahead : (c.taken 1).ahead = cs := by rw [taken, hs]; rfl
      rw [advance_eq hs (by decide), eatDigits_eq, taken_taken, hahead, Nat.add_comm]
    · cases h
  · cases h

/-- A failed scan leaves everything as it was, since it moves over no end of a line. -/
theorem scanDate_eq {n : Nat} (h : Lexeme.slashGroup? c.ahead = some n) :
    c.scanDate =
      match Lexeme.slashGroup? (c.ahead.drop n) with
      | some m => (true, c.taken (n + m))
      | none => (false, c) := by
  rw [scanDate, advance_eatDigits h, atGroup_eq]
  show (if (Lexeme.slashGroup? (c.ahead.drop n)).isSome then _ else _) = _
  cases hm : Lexeme.slashGroup? (c.ahead.drop n) with
  | none => rfl
  | some m =>
      rw [advance_eatDigits (c := c.taken n) hm, taken_taken]
      rfl

/-- A number is read as far as it is taken character by character. -/
theorem scanTail_eq (c : Cursor) :
    c.scanTail =
      ((Lexeme.numberTail c.ahead).kind, c.taken (Lexeme.numberTail c.ahead).size) := by
  unfold scanTail
  split
  · rename_i d ds hs
    cases hd : d.isDigit with
    | true =>
        have hn : Lexeme.slashGroup? c.ahead = some (Lexeme.digitRun (d :: ds) + 1) := by
          simp [hs, Lexeme.slashGroup?, Lexeme.beginsWithDigit, hd]
        rw [if_pos rfl, scanDate_eq hn, Lexeme.numberTail_of_group hn]
        cases Lexeme.slashGroup? (c.ahead.drop (Lexeme.digitRun (d :: ds) + 1)) <;> rfl
    | false =>
        simp [hs, Lexeme.numberTail, Lexeme.slashGroup?, Lexeme.beginsWithDigit, hd, taken_zero]
  · rename_i d ds hs
    have hpoint : c.advance = c.taken 1 := advance_eq hs (by decide)
    have hbehind : (c.taken 1).ahead = d :: ds := by rw [taken, hs]; rfl
    rw [hpoint, eatDigits_eq, taken_taken, hbehind, hs, Nat.add_comm]
    cases hd : d.isDigit with
    | true => simp [Lexeme.numberTail, Lexeme.slashGroup?, hd]
    | false =>
        cases halpha : Text.isAlphabetic d <;>
          simp [Lexeme.numberTail, Lexeme.slashGroup?, hd, halpha, taken_zero]
  · rename_i hs
    rw [advance_eq hs (by decide), hs]
    rfl
  · rename_i hslash hpoint hlast
    have hgroup : c.atGroup = false := by
      unfold atGroup
      split
      · exact absurd ‹_› (hslash _ _)
      · rfl
    have hnone : Lexeme.slashGroup? c.ahead = none := by
      rw [atGroup_eq] at hgroup
      simpa using hgroup
    have htail : Lexeme.numberTail c.ahead = ⟨.integer, 0⟩ := by
      rw [Lexeme.numberTail, hnone]
      · exact hpoint
      · exact hlast
    rw [htail, taken_zero]

/-- The digits of a number, the first of them taken on its own. -/
theorem advance_eatDigits_of_digit (h : Lexeme.beginsWithDigit c.ahead = true) :
    c.advance.eatDigits = c.taken (Lexeme.digitRun c.ahead) := by
  cases hs : c.ahead with
  | nil => simp [hs, Lexeme.beginsWithDigit] at h
  | cons d ds =>
      have hd : d.isDigit = true := by simpa [hs, Lexeme.beginsWithDigit] using h
      have hbehind : (c.taken 1).ahead = ds := by rw [taken, hs]; rfl
      rw [advance_eq hs (Lexeme.ne_newline_of_isDigit hd), eatDigits_eq, taken_taken, hbehind,
        Lexeme.digitRun_cons hd, Nat.add_comm]

theorem scanNumber_eq (h : Lexeme.beginsWithDigit c.ahead = true) :
    c.advance.scanNumber =
      ((Lexeme.number c.ahead).kind, c.taken (Lexeme.number c.ahead).size) := by
  rw [scanNumber, advance_eatDigits_of_digit h, scanTail_eq, taken_taken]
  rfl

end Cursor

/-! ### Dates -/

namespace Lexeme

/-- Three groups of digits with slashes between them. -/
def IsDate (text : List Char) : Prop :=
  ∃ ds es fs, Digits ds ∧ Digits es ∧ Digits fs ∧ text = ds ++ '/' :: (es ++ '/' :: fs)

variable {cs ds es fs p rest : List Char} {e : Char}

theorem number_date (hds : Digits ds) (hes : Digits es) (hfs : Digits fs)
    (hrest : EndsDigits rest) :
    number (ds ++ '/' :: (es ++ '/' :: fs) ++ rest) =
      ⟨.date, (ds ++ '/' :: (es ++ '/' :: fs)).length⟩ := by
  have hrun : digitRun (ds ++ ('/' :: (es ++ '/' :: fs) ++ rest)) = ds.length :=
    digitRun_append_of_head hds.2 (by simp)
  rw [List.append_assoc, number, hrun, List.drop_left, numberTail_groups hes hfs hrest,
    List.length_append]

/-- A text that begins with a date is read as one that takes all the digits of the third group. -/
theorem exists_number_date (hp : IsDate p) (rest : List Char) :
    ∃ gs, gs <+: rest ∧ IsDate (p ++ gs) ∧ number (p ++ rest) = ⟨.date, (p ++ gs).length⟩ := by
  obtain ⟨ds, es, fs, hds, hes, hfs, rfl⟩ := hp
  have hgs : ∀ c ∈ rest.takeWhile Char.isDigit, c.isDigit = true :=
    List.all_eq_true.mp List.all_takeWhile
  have hyear : Digits (fs ++ rest.takeWhile Char.isDigit) :=
    ⟨by simp [hfs.1], List.forall_mem_append.mpr ⟨hfs.2, hgs⟩⟩
  have hlonger : ds ++ '/' :: (es ++ '/' :: fs) ++ rest.takeWhile Char.isDigit =
      ds ++ '/' :: (es ++ '/' :: (fs ++ rest.takeWhile Char.isDigit)) := by simp
  refine ⟨rest.takeWhile Char.isDigit, List.takeWhile_prefix _, ?_, ?_⟩
  · exact ⟨ds, es, _, hds, hes, hyear, hlonger⟩
  · have hread := number_date hds hes hyear (endsDigits_drop_digitRun rest)
    rw [← hlonger, List.append_assoc, ← take_digitRun, List.take_append_drop] at hread
    rw [hread, take_digitRun]

/-- Digits are read as a date if there is one, and then as the longest one. -/
theorem number_kind_iff (h : beginsWithDigit cs = true) :
    ((number cs).kind = .date ↔ ∃ p, IsDate p ∧ p <+: cs) ∧
      ((number cs).kind = .date → IsDate (cs.take (number cs).size) ∧
        ∀ p, IsDate p → p <+: cs → p <+: cs.take (number cs).size) := by
  have hdate : (number cs).kind = .date → IsDate (cs.take (number cs).size) := by
    intro hk
    cases cs with
    | nil => cases h
    | cons c cs =>
        have hspells := spells_number (by simpa [beginsWithDigit] using h) cs
        rw [hk] at hspells
        generalize (c :: cs).take (number (c :: cs)).size = text at hspells
        cases hspells with
        | date hds hes hfs => exact ⟨_, _, _, hds, hes, hfs, rfl⟩
  have hbegins : ∀ p, IsDate p → p <+: cs →
      (number cs).kind = .date ∧ p <+: cs.take (number cs).size := by
    rintro p hp ⟨rest, rfl⟩
    obtain ⟨gs, ⟨more, rfl⟩, -, hread⟩ := exists_number_date hp rest
    rw [hread, ← List.append_assoc, List.take_left]
    exact ⟨rfl, List.prefix_append p gs⟩
  refine ⟨⟨fun hk => ⟨_, hdate hk, List.take_prefix _ _⟩, ?_⟩, fun hk => ⟨hdate hk, ?_⟩⟩
  · rintro ⟨p, hp, hcs⟩
    exact (hbegins p hp hcs).1
  · intro p hp hcs
    exact (hbegins p hp hcs).2

/-- Without a third group the digits in front of the first slash are a number. -/
theorem number_division (hds : Digits ds) (he : e.isDigit = true)
    (hk : (number (ds ++ '/' :: e :: es)).kind ≠ .date) :
    digitRun (ds ++ '/' :: e :: es) = ds.length ∧
      number (ds ++ '/' :: e :: es) = ⟨.integer, ds.length⟩ ∧
      ∃ n, slashGroup? ('/' :: e :: es) = some n ∧
        slashGroup? (('/' :: e :: es).drop n) = none := by
  have hrun : digitRun (ds ++ '/' :: e :: es) = ds.length :=
    digitRun_append_of_head hds.2 (by simp)
  have hn : slashGroup? ('/' :: e :: es) = some (digitRun (e :: es) + 1) := by
    simp [slashGroup?, beginsWithDigit, he]
  have htail := numberTail_of_group hn
  rw [number, hrun, List.drop_left] at hk ⊢
  cases hm : slashGroup? (('/' :: e :: es).drop (digitRun (e :: es) + 1)) with
  | none =>
      rw [hm] at htail
      exact ⟨rfl, by rw [htail]; rfl, _, hn, hm⟩
  | some m =>
      rw [hm] at htail
      exact absurd (congrArg Lexeme.kind htail) hk

/-- A slash is a sign, and goes on with no other character. -/
theorem read_slash (cs : List Char) : read '/' cs = ⟨.operator .slash, 1⟩ := by
  have hword : isWordStart '/' = false := by decide
  have hall : ∀ s ∈ symbols, s.1.head? = some '/' → s.1.tail = [] := by decide
  have hglues : ∀ d, glues '/' d = false := by
    intro d
    refine List.any_eq_false.mpr fun s hs hglues => ?_
    rw [Bool.and_eq_true, beq_iff_eq] at hglues
    simp [hall s hs hglues.1] at hglues
  have hread : read '/' cs = symbol (['/'] ++ cs) := by simp [read, isDelimiter, hword]
  rw [hread, symbol_append (.inr fun d _ => hglues d)]
  decide

end Lexeme

/-! ### Dates and divisions in a text -/

namespace Cursor

variable {file : String} {c : Cursor}

/-- The number in front of a cursor is the one taken character by character. -/
theorem next_number (h : Lexeme.beginsWithDigit c.skipTrivia.ahead = true) (file : String) :
    c.next file =
      (⟨c.skipTrivia.advance.scanNumber.1,
          String.ofList (c.skipTrivia.ahead.take (Lexeme.number c.skipTrivia.ahead).size),
          ⟨c.skipTrivia.place.offset, c.skipTrivia.advance.scanNumber.2.place.offset⟩,
          c.skipTrivia.place.line, c.skipTrivia.place.column, file⟩,
        { c.skipTrivia.advance.scanNumber.2 with fresh := false }) := by
  rw [scanNumber_eq h]
  cases hs : c.skipTrivia.ahead with
  | nil =>
      rw [hs] at h
      cases h
  | cons d ds =>
      have hd : d.isDigit = true := by simpa [hs, Lexeme.beginsWithDigit] using h
      simp only [next, hs, Lexeme.read_digit hd, taken]

/-- A slash in front of a digit begins no comment. -/
theorem next_slash {e : Char} (he : e.isDigit = true) (p : Place) (fresh : Bool) (es : List Char)
    (file : String) :
    (⟨p, fresh, '/' :: e :: es⟩ : Cursor).next file =
      (⟨.operator .slash, "/", ⟨p.offset, p.offset + 1⟩, p.line, p.column, file⟩,
        ⟨p.step '/', false, e :: es⟩) := by
  have hskip : (⟨p, fresh, '/' :: e :: es⟩ : Cursor).skipTrivia = ⟨p, fresh, '/' :: e :: es⟩ := by
    have hbegins : Lexeme.Begins '/' [] := ⟨by decide, by decide, fun _ => rfl⟩
    refine Trivia.skip_begins hbegins (fun _ => by decide) fun _ d hd => ?_
    obtain rfl : e = d := Option.some.inj hd
    constructor <;> rintro rfl <;> cases he
  simp only [next, hskip, Lexeme.read_slash]
  rfl

end Cursor

/-- What is read where digits, a slash and a digit begin no date. -/
structure Cursor.Divides (file : String) (c : Cursor) (ds rest : List Char) : Prop where
  /-- The lexer tries to read a date behind the digits, and changes nothing. -/
  restored : c.skipTrivia.advance.eatDigits.scanDate = (false, c.skipTrivia.advance.eatDigits)
  /-- The digits are a number. -/
  integer : c.next file =
    (⟨.integer, String.ofList ds,
        ⟨c.skipTrivia.place.offset, c.skipTrivia.advance.eatDigits.place.offset⟩,
        c.skipTrivia.place.line, c.skipTrivia.place.column, file⟩,
      { c.skipTrivia.advance.eatDigits with fresh := false })
  /-- The text goes on with the slash. -/
  ahead : (c.next file).2.ahead = rest
  /-- The slash is an operator. -/
  slash : ((c.next file).2.next file).1 =
    ⟨.operator .slash, "/", ⟨(c.next file).2.place.offset, (c.next file).2.place.offset + 1⟩,
      (c.next file).2.place.line, (c.next file).2.place.column, file⟩
  /-- The other tokens are those of the text from the slash on. -/
  others : (TokenStream.ofCursor file (c.next file).2).toList =
    (tokens (String.ofList rest) file).map (Token.onward (c.next file).2.place)

theorem Cursor.divides {file : String} {c : Cursor} {ds es : List Char} {e : Char}
    (hds : Lexeme.Digits ds) (he : e.isDigit = true)
    (hs : c.skipTrivia.ahead = ds ++ '/' :: e :: es) (hk : (c.next file).1.kind ≠ .date) :
    c.Divides file ds ('/' :: e :: es) := by
  have hdigit : Lexeme.beginsWithDigit c.skipTrivia.ahead = true := by
    rw [hs]
    exact Lexeme.beginsWithDigit_of_digits hds _
  have hnext := next_number hdigit file
  have hscan := scanNumber_eq hdigit
  have hkind : (Lexeme.number (ds ++ '/' :: e :: es)).kind ≠ .date := by
    rw [hnext, hscan, hs] at hk
    exact hk
  obtain ⟨hrun, hnumber, n, hn, hm⟩ := Lexeme.number_division hds he hkind
  -- The state behind the digits, and its text.
  have hbehind : c.skipTrivia.advance.eatDigits = c.skipTrivia.taken ds.length := by
    rw [advance_eatDigits_of_digit hdigit, hs, hrun]
  have hrest : (c.skipTrivia.taken ds.length).ahead = '/' :: e :: es := by
    rw [taken, hs, List.drop_left]
  rw [hs, hnumber] at hscan
  rw [hscan, hs, hnumber, List.take_left, ← hbehind] at hnext
  have hahead : (c.next file).2.ahead = '/' :: e :: es := by
    rw [hnext, hbehind]
    exact hrest
  have hcursor : (c.next file).2 = ⟨(c.next file).2.place, false, '/' :: e :: es⟩ := by
    rw [← hahead, hnext]
  refine ⟨?_, hnext, hahead, ?_, ?_⟩
  · rw [hbehind, scanDate_eq (hrest ▸ hn), hrest, hm]
  · rw [hcursor, next_slash he]
  · -- Behind a token no line is fresh, but a slash does not ask for that.
    have hstart : (ofText ('/' :: e :: es)).onward (c.next file).2.place =
        ⟨(c.next file).2.place, true, '/' :: e :: es⟩ := by
      rw [onward, ofText, Place.onward_start]
    rw [tokens, TokenStream.ofText, String.toList_ofList,
      ← TokenStream.ofCursor_onward Place.counted_start, hstart]
    refine congrArg TokenStream.toList (TokenStream.ofCursor_congr ?_)
    rw [next_slash he, hcursor, next_slash he]

/-- At a digit the lexer takes a number character by character. It is a date if one begins there,
and then the longest one. Digits in front of a slash and another digit that begin no date are a
number of their own: the lexer goes back behind them with all its state, finds the slash next, and
goes on as in a text that begins with the slash. -/
theorem date_or_division {source file : String} {ts : List Token} {c : Cursor}
    (hts : Scans file (.ofText source.toList) ts c)
    (hdigit : Lexeme.beginsWithDigit c.skipTrivia.ahead = true) :
    ((c.next file).1.kind, (c.next file).2) =
        (c.skipTrivia.advance.scanNumber.1,
          { c.skipTrivia.advance.scanNumber.2 with fresh := false }) ∧
      ((c.next file).1.kind = .date ↔ ∃ p, Lexeme.IsDate p ∧ p <+: c.skipTrivia.ahead) ∧
      ((c.next file).1.kind = .date →
        Lexeme.IsDate (c.next file).1.literal.toList ∧
          (c.next file).1.literal.toList <+: c.skipTrivia.ahead ∧
          ∀ p, Lexeme.IsDate p → p <+: c.skipTrivia.ahead →
            p <+: (c.next file).1.literal.toList) ∧
      ∀ ds e es, Lexeme.Digits ds → e.isDigit = true →
        c.skipTrivia.ahead = ds ++ '/' :: e :: es → (c.next file).1.kind ≠ .date →
        c.Divides file ds ('/' :: e :: es) ∧
          tokens source file = ts ++ (c.next file).1 ::
            (tokens (String.ofList ('/' :: e :: es)) file).map
              (Token.onward (c.next file).2.place) := by
  have hnext := Cursor.next_number hdigit file
  have hscan := Cursor.scanNumber_eq hdigit
  have hkind : (c.next file).1.kind = (Lexeme.number c.skipTrivia.ahead).kind := by
    rw [hnext, hscan]
  have hliteral : (c.next file).1.literal.toList =
      c.skipTrivia.ahead.take (Lexeme.number c.skipTrivia.ahead).size := by
    rw [hnext, String.toList_ofList]
  obtain ⟨hiff, hlongest⟩ := Lexeme.number_kind_iff hdigit
  refine ⟨by rw [hnext], ?_⟩
  rw [hkind, hliteral]
  refine ⟨hiff, fun hk => ?_, fun ds e es hds he hs hk => ?_⟩
  · obtain ⟨hdate, hall⟩ := hlongest hk
    exact ⟨hdate, List.take_prefix _ _, hall⟩
  · have hdivides : c.Divides file ds ('/' :: e :: es) := Cursor.divides hds he hs (hkind ▸ hk)
    refine ⟨hdivides, ?_⟩
    have hopen : ¬c.AtEnd file := by
      rw [Cursor.atEnd_iff]
      intro hnil
      rw [hnil] at hdigit
      cases hdigit
    have htokens : tokens source file = ts ++ (TokenStream.ofCursor file c).toList :=
      TokenStream.toList_of_scans hts
    rw [htokens, TokenStream.toList_of_not_atEnd hopen, hdivides.others]

/-- In front of a division by a fraction, with a date and a minus on the same line. -/
def quotient : Cursor := ⟨⟨6, 1, 7⟩, false, "10/2.5".toList⟩

/-- The digits behind the slash belong to a fraction, so they end no date. -/
theorem date_or_division_quotient :
    Scans "t.prw" (.ofText "1/2/3-10/2.5".toList)
        [⟨.date, "1/2/3", ⟨0, 5⟩, 1, 1, "t.prw"⟩, ⟨.operator .minus, "-", ⟨5, 6⟩, 1, 6, "t.prw"⟩]
        quotient ∧
      Lexeme.beginsWithDigit quotient.skipTrivia.ahead = true ∧
      quotient.Divides "t.prw" "10".toList "/2.5".toList := by
  have hdate : (Cursor.ofText "1/2/3-10/2.5".toList).next "t.prw" =
      (⟨.date, "1/2/3", ⟨0, 5⟩, 1, 1, "t.prw"⟩, ⟨⟨5, 1, 6⟩, false, "-10/2.5".toList⟩) := by
    decide +kernel
  have hminus : (⟨⟨5, 1, 6⟩, false, "-10/2.5".toList⟩ : Cursor).next "t.prw" =
      (⟨.operator .minus, "-", ⟨5, 6⟩, 1, 6, "t.prw"⟩, quotient) := by
    decide +kernel
  have hopen : ¬(Cursor.ofText "1/2/3-10/2.5".toList).AtEnd "t.prw" := by
    rw [Cursor.AtEnd, hdate]
    decide
  have hopen' : ¬((Cursor.ofText "1/2/3-10/2.5".toList).next "t.prw").2.AtEnd "t.prw" := by
    rw [hdate, Cursor.AtEnd, hminus]
    decide
  have hts := Scans.token hopen (.token hopen' (.done _))
  rw [hdate, hminus] at hts
  have hdigit : Lexeme.beginsWithDigit quotient.skipTrivia.ahead = true := by decide +kernel
  obtain ⟨-, -, -, hall⟩ := date_or_division hts hdigit
  have hdivides := hall "10".toList '2' ".5".toList (by simp [Lexeme.Digits]) (by decide)
    (by decide +kernel) (by decide +kernel)
  exact ⟨hts, hdigit, hdivides.1⟩

end Clipper
