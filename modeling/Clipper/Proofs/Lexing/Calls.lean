import Clipper.Proofs.Lexing.Scan

/-!
Reading token by token. A reader gives out the tokens of its text in order and the end token from
then on, whichever way it is asked, and begins anew when it is told to. Only who follows the
sequence finds that it stops.
-/

namespace Clipper

/-- At the end of a text the end token is found again. -/
theorem Cursor.next_of_atEnd {file : String} {c : Cursor} (h : c.AtEnd file) :
    (c.next file).2.next file = c.next file := by
  have hnil := atEnd_iff.mp h
  have hbehind : (c.next file).2 = c.skipTrivia := by simp [next, hnil]
  have hskip : c.skipTrivia.skipTrivia = c.skipTrivia := by
    rw [skipTrivia, hnil, Trivia.skip, ← hnil]
  rw [hbehind]
  exact next_of_skipTrivia hskip

namespace TokenStream

variable {file : String} {c : Cursor} {ts : List Token} {k : Nat}

theorem toList_ne_nil (s : TokenStream) : s.toList ≠ [] := by simp [toList]

theorem drop_last (s : TokenStream) : s.toList.drop (s.toList.length - 1) = [s.last] := by
  rw [toList, List.length_append, List.length_singleton, Nat.add_sub_cancel, List.drop_left]

/-- A cursor behind `k` tokens of a text, or behind all but the last, finds the next of them. -/
theorem next_of_drop (h : (ofCursor file c).toList = ts.drop (min k (ts.length - 1))) :
    ts[min k (ts.length - 1)]? = some (c.next file).1 := by
  rw [← List.head?_drop, ← h, head?_toList]

/-- From there on it stands behind one token more, but not behind the last. -/
theorem drop_next (h : (ofCursor file c).toList = ts.drop (min k (ts.length - 1))) :
    (ofCursor file (c.next file).2).toList = ts.drop (min (k + 1) (ts.length - 1)) := by
  have hlength := congrArg List.length h
  rw [List.length_drop] at hlength
  by_cases hend : c.AtEnd file
  · rw [ofCursor_congr (Cursor.next_of_atEnd hend), h]
    rw [toList_of_atEnd hend, List.length_singleton] at hlength
    congr 1
    omega
  · have hbehind := List.length_pos_iff.mpr (ofCursor file (c.next file).2).toList_ne_nil
    rw [toList_of_not_atEnd hend] at h hlength
    rw [List.length_cons] at hlength
    have hlast : min (k + 1) (ts.length - 1) = min k (ts.length - 1) + 1 := by omega
    rw [hlast, ← List.tail_drop, ← h]
    rfl

end TokenStream

namespace TokenReader

/-- The rest of the sequence is what `next?` gives out, one by one. -/
theorem remaining_eq (r : TokenReader) :
    r.remaining = match r.next? with
      | none => []
      | some (t, r) => t :: r.remaining := by
  unfold next?
  cases hfinished : r.finished with
  | true => simp [remaining, hfinished]
  | false =>
      simp only [remaining, hfinished, pull]
      by_cases hend : r.cursor.AtEnd r.file
      · have hlast : (r.cursor.next r.file).1.isEnd = true := hend
        simp [hlast, TokenStream.toList_of_atEnd hend]
      · have hopen : (r.cursor.next r.file).1.isEnd = false := by simpa [Cursor.AtEnd] using hend
        simp [hopen, TokenStream.toList_of_not_atEnd hend]

/-- What a reader may be asked for: a token, the next member of the sequence, or to begin anew. -/
inductive Call
  | pull | next | reset
  deriving DecidableEq, Repr

/-- The answer to a call, if there is one, and the reader behind it. -/
def answer (r : TokenReader) : Call → Option Token × TokenReader
  | .pull => (some r.pull.1, r.pull.2)
  | .next => (r.next?.map Prod.fst, r.next?.elim r Prod.snd)
  | .reset => (none, r.reset)

theorem answer_next {r : TokenReader} (h : r.finished = false) :
    r.answer .next = (some r.pull.1, { r.pull.2 with finished := r.pull.1.isEnd }) := by
  simp [answer, next?, h]

theorem answer_next_of_finished {r : TokenReader} (h : r.finished = true) :
    r.answer .next = (none, r) := by
  simp [answer, next?, h]

/-- A reader, with what it was asked and what it answered. The latest call comes first. -/
structure Session where
  reader : TokenReader
  log : List (Call × Option Token)

namespace Session

def begin (source file : String) : Session := ⟨.ofSource source file, []⟩

def call (s : Session) (c : Call) : Session :=
  ⟨(s.reader.answer c).2, (c, (s.reader.answer c).1) :: s.log⟩

/-- The calls made one after the other. -/
def calls (s : Session) (cs : List Call) : Session := cs.foldl call s

/-- What was asked and answered since the reader last began anew. -/
def recent (s : Session) : List (Call × Option Token) := s.log.takeWhile (·.1 != .reset)

/-- The tokens given out since then, by either method. -/
def handed (s : Session) : List Token := (s.recent.filterMap (·.2)).reverse

/-- Since then the sequence was followed up to the end token. -/
def followed (s : Session) : Bool := s.recent.any fun e => e.1 == .next && e.2.any Token.isEnd

section Step

variable (s : Session) {c : Call}

theorem recent_call (h : c ≠ .reset) :
    (s.call c).recent = (c, (s.reader.answer c).1) :: s.recent :=
  List.takeWhile_cons_of_pos (by simpa using h)

theorem recent_reset : (s.call .reset).recent = [] := rfl

theorem handed_call (h : c ≠ .reset) :
    (s.call c).handed = s.handed ++ (s.reader.answer c).1.toList := by
  rw [handed, recent_call s h, handed]
  cases (s.reader.answer c).1 <;> simp

theorem followed_pull : (s.call .pull).followed = s.followed := by
  rw [followed, recent_call s (by decide)]
  rfl

theorem followed_next :
    (s.call .next).followed = ((s.reader.answer .next).1.any Token.isEnd || s.followed) := by
  rw [followed, recent_call s (by decide)]
  rfl

end Step

/-- What the reader is in agrees with what it answered. -/
structure Tracks (source file : String) (s : Session) : Prop where
  source_eq : s.reader.source = source
  file_eq : s.reader.file = file
  handed_eq : ∀ i < s.handed.length,
    s.handed[i]? = (tokens source file)[min i ((tokens source file).length - 1)]?
  ahead : (TokenStream.ofCursor file s.reader.cursor).toList =
    (tokens source file).drop (min s.handed.length ((tokens source file).length - 1))
  finished : s.reader.finished = s.followed

namespace Tracks

variable {source file : String} {s s' : Session}

/-- A reader at the start of the text, of which nothing is remembered. -/
theorem start (hreader : s.reader = .ofSource source file) (hrecent : s.recent = []) :
    Tracks source file s where
  source_eq := by rw [hreader]; rfl
  file_eq := by rw [hreader]; rfl
  handed_eq := by simp [handed, hrecent]
  ahead := by
    rw [hreader, handed, hrecent]
    show _ = (tokens source file).drop (min 0 _)
    rw [Nat.zero_min]
    rfl
  finished := by rw [hreader, followed, hrecent]; rfl

/-- Nothing was given out. -/
theorem keep (h : Tracks source file s) (hreader : s'.reader = s.reader)
    (hhanded : s'.handed = s.handed) (hfollowed : s'.followed = s.followed) :
    Tracks source file s' := by
  obtain ⟨hsource, hfile, hbefore, hahead, hfinished⟩ := h
  refine ⟨?_, ?_, ?_, ?_, ?_⟩
  · rwa [hreader]
  · rwa [hreader]
  · rwa [hhanded]
  · rwa [hreader, hhanded]
  · rwa [hreader, hfollowed]

/-- A token more was given out. -/
theorem give (h : Tracks source file s) (hsource : s'.reader.source = s.reader.source)
    (hfile : s'.reader.file = s.reader.file)
    (hcursor : s'.reader.cursor = s.reader.pull.2.cursor)
    (hhanded : s'.handed = s.handed ++ [s.reader.pull.1])
    (hfinished : s'.reader.finished = s'.followed) : Tracks source file s' where
  source_eq := hsource.trans h.source_eq
  file_eq := hfile.trans h.file_eq
  handed_eq := by
    obtain ⟨-, rfl, hbefore, hahead, -⟩ := h
    intro i hi
    rw [hhanded, List.length_append, List.length_singleton] at hi
    rw [hhanded]
    by_cases hlast : i = s.handed.length
    · rw [hlast, List.getElem?_concat_length, TokenStream.next_of_drop hahead]
      rfl
    · rw [List.getElem?_append_left (by omega)]
      exact hbefore i (by omega)
  ahead := by
    obtain ⟨-, rfl, -, hahead, -⟩ := h
    rw [hcursor, hhanded, List.length_append, List.length_singleton]
    exact TokenStream.drop_next hahead
  finished := hfinished

/-- One call more. -/
theorem call (h : Tracks source file s) (c : Call) : Tracks source file (s.call c) := by
  cases c with
  | pull =>
      refine h.give rfl rfl rfl (s.handed_call (by decide)) ?_
      rw [followed_pull, ← h.finished]
      rfl
  | next =>
      cases hfinished : s.reader.finished with
      | true =>
          have hanswer := TokenReader.answer_next_of_finished hfinished
          refine h.keep (congrArg Prod.snd hanswer) ?_ ?_
          · rw [s.handed_call (by decide), hanswer]
            exact List.append_nil _
          · rw [s.followed_next, hanswer]
            rfl
      | false =>
          have hanswer := TokenReader.answer_next hfinished
          have hhanded := s.handed_call (c := .next) (by decide)
          rw [hanswer] at hhanded
          refine h.give ?_ ?_ ?_ hhanded ?_
          · rw [Session.call, hanswer]; rfl
          · rw [Session.call, hanswer]; rfl
          · rw [Session.call, hanswer]
          · rw [s.followed_next, ← h.finished, hfinished, Bool.or_false, Session.call, hanswer]
            rfl
  | reset => exact start (by rw [← h.source_eq, ← h.file_eq]; rfl) s.recent_reset

theorem calls (h : Tracks source file s) (cs : List Call) : Tracks source file (s.calls cs) := by
  induction cs generalizing s with
  | nil => exact h
  | cons c cs ih => exact ih (h.call c)

/-- What is left of the sequence. -/
theorem remaining (h : Tracks source file s) :
    s.reader.remaining = if s.followed then []
      else (tokens source file).drop (min s.handed.length ((tokens source file).length - 1)) := by
  rw [TokenReader.remaining, h.finished, h.file_eq, h.ahead]

end Tracks

/-- A reader asked in any way, and as often as one likes, gives out the tokens of its text in
order since it last began anew, and the last of them from then on. Taken as a sequence they stop
behind the end token, and where someone followed them so far nothing is left. -/
theorem answers_of_calls (source file : String) (cs : List Call) :
    let s := (begin source file).calls cs
    let ts := tokens source file
    (∀ i < s.handed.length, s.handed[i]? = ts[min i (ts.length - 1)]?) ∧
      ((s.reader.answer .next).1 = none ↔ s.followed = true) ∧
      ∃ last, ts.getLast? = some last ∧ last.isEnd = true ∧
        s.reader.remaining = if s.followed then []
          else if s.handed.length < ts.length then ts.drop s.handed.length else [last] := by
  intro s ts
  have htracks : Tracks source file s := (Tracks.start (s := begin source file) rfl rfl).calls cs
  refine ⟨htracks.handed_eq, ?_, (TokenStream.ofText file source).last, ?_, ?_, ?_⟩
  · rw [← htracks.finished]
    cases hfinished : s.reader.finished with
    | true => simp [answer_next_of_finished hfinished]
    | false => simp [answer_next hfinished]
  · exact List.getLast?_concat
  · exact (TokenStream.closed_ofText file source).last_isEnd
  · show _ = if s.followed then [] else if s.handed.length < (tokens source file).length then
      (tokens source file).drop s.handed.length else [(TokenStream.ofText file source).last]
    rw [htracks.remaining]
    by_cases hleft : s.handed.length < (tokens source file).length
    · rw [if_pos hleft, Nat.min_eq_left (by omega)]
    · rw [if_neg hleft, Nat.min_eq_right (by omega), tokens, TokenStream.drop_last]

end Session

end TokenReader

end Clipper
