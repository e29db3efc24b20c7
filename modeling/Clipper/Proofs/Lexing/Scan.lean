import Clipper.Token.Stream

/-!
Lexing as a judgement: from one cursor the tokens of a list are read up to another.
Every token covers at least one character, so a text is scanned to its end, and the
places of its tokens strictly advance.
-/

namespace Clipper

namespace Lexeme

theorem kind_numberTail (cs : List Char) : (numberTail cs).kind ≠ .endOfInput := by
  fun_cases numberTail <;> simp

theorem kind_dottedWord {s : String} {k : TokenKind} (h : dottedWord? s = some k) :
    k ≠ .endOfInput := by
  rw [dottedWord?] at h
  split at h
  · cases h
    simp
  · cases h
    simp
  · obtain ⟨o, _, rfl⟩ := Option.map_eq_some_iff.mp h
    simp

theorem mem_symbols {s : List Char × TokenKind} (h : s ∈ symbols) :
    s.1 ≠ [] ∧ s.2 ≠ .endOfInput := by
  have hall : ∀ s ∈ symbols, s.1 ≠ [] ∧ s.2 ≠ .endOfInput := by decide
  exact hall s h

/-- No token is the end of the text. -/
theorem kind_read (c : Char) (cs : List Char) : (read c cs).kind ≠ .endOfInput := by
  unfold read
  split
  · simp
  split
  · exact kind_numberTail _
  split
  · unfold dot
    split
    · simp
    split
    · simp
    split
    · rename_i hk
      exact kind_dottedWord hk
    · simp
  split
  · simp only [word]
    split <;> simp
  · unfold symbol
    split
    · rename_i hs
      exact (mem_symbols (List.mem_of_find?_eq_some hs)).2
    · simp

theorem digitRun_cons {c : Char} (hc : c.isDigit = true) (cs : List Char) :
    digitRun (c :: cs) = digitRun cs + 1 := by
  simp [digitRun, hc]

/-- Every token takes a character. -/
theorem size_read_pos (c : Char) (cs : List Char) : 0 < (read c cs).size := by
  unfold read
  split
  · simp
  split
  · rename_i hd
    simp only [number, digitRun_cons hd]
    omega
  split
  · unfold dot
    split
    · simp
    split
    · simp
    · rename_i letters hl
      split
      · obtain ⟨_, rfl⟩ : _ ∧ '.' :: cs.takeWhile Char.isAlpha ++ ['.'] = letters := by
          simpa [dottedLetters?] using hl
        simp
      · simp
  split
  · rename_i hw
    have hp : isWordPart c = true := by
      simp only [isWordStart, Bool.or_eq_true] at hw
      rcases hw with hw | hw <;> simp [isWordPart, hw]
    simp [word, hp]
  · unfold symbol
    split
    · rename_i hs
      exact List.length_pos_iff.mpr (mem_symbols (List.mem_of_find?_eq_some hs)).1
    · simp

end Lexeme

namespace Trivia

/-- Skipping moves over a piece of the text. -/
theorem skip_past (mode : Mode) (p : Place) (fresh : Bool) (text : List Char) :
    ∃ gap, text = gap ++ (skip mode p fresh text).ahead ∧
      (skip mode p fresh text).place = p.past gap := by
  fun_induction skip mode p fresh text with
  | case1 => exact ⟨[], by simp⟩
  | case2 p fresh cs ih | case3 p fresh c cs _ ih | case5 p fresh c cs _ ih
  | case9 p fresh c cs _ _ _ _ ih | case10 p fresh c cs _ _ _ _ _ ih =>
      obtain ⟨gap, htext, hplace⟩ := ih
      exact ⟨_ :: gap, by rw [List.cons_append, ← htext], hplace⟩
  | case4 p fresh cs ih | case6 p fresh cs ih | case7 p fresh cs ih | case8 p fresh cs ih =>
      obtain ⟨gap, htext, hplace⟩ := ih
      exact ⟨_ :: _ :: gap, by rw [List.cons_append, List.cons_append, ← htext], hplace⟩
  | case11 => exact ⟨[], by simp⟩

theorem le_skip (mode : Mode) (p : Place) (fresh : Bool) (text : List Char) :
    p.offset ≤ (skip mode p fresh text).place.offset := by
  obtain ⟨gap, -, hplace⟩ := skip_past mode p fresh text
  rw [hplace, Place.past_offset]
  exact Nat.le_add_right _ _

end Trivia

namespace Place

/-- Reached from `p` over at least one character. -/
def Before (p q : Place) : Prop := ∃ cs, cs ≠ [] ∧ q = p.past cs

variable {p q u : Place}

theorem Before.trans_past (h : p.Before q) (cs : List Char) : p.Before (q.past cs) := by
  obtain ⟨ds, hds, rfl⟩ := h
  exact ⟨ds ++ cs, by simp [hds], (past_append p ds cs).symm⟩

theorem Before.offset_lt (h : p.Before q) : p.offset < q.offset := by
  obtain ⟨_ | ⟨c, cs⟩, hne, rfl⟩ := h
  · exact absurd rfl hne
  · rw [past_offset, byteSize]
    have := c.utf8Size_pos
    omega

theorem past_line_or_column (p : Place) (cs : List Char) :
    p.line < (p.past cs).line ∨
      p.line = (p.past cs).line ∧ (p.past cs).column = p.column + cs.length := by
  induction cs generalizing p with
  | nil => simp
  | cons c cs ih =>
      rw [past_cons]
      have hstep : (p.step c).line = p.line + 1 ∨
          (p.step c).line = p.line ∧ (p.step c).column = p.column + 1 := by
        unfold step
        split <;> simp
      have := ih (p.step c)
      simp only [List.length_cons]
      omega

/-- No two places of a text share their line and column. -/
theorem Before.line_column (h : p.Before q) : (p.line, p.column) ≠ (q.line, q.column) := by
  obtain ⟨cs, hne, rfl⟩ := h
  have hpos := List.length_pos_iff.mpr hne
  have := past_line_or_column p cs
  intro heq
  obtain ⟨hl, hc⟩ := Prod.mk.inj heq
  omega

end Place

/-- Where a token begins. -/
def Token.place (t : Token) : Place := ⟨t.span.start, t.line, t.column⟩

namespace Cursor

variable {file : String} {c c' : Cursor}

/-- The next token is the end of the text. -/
def AtEnd (file : String) (c : Cursor) : Prop := (c.next file).1.isEnd = true

theorem next_of_skipTrivia {d : Cursor} (h : c.skipTrivia = d.skipTrivia) :
    c.next file = d.next file := by
  simp only [next, h]

/-- The next token and the cursor behind it, in terms of the text in front of it. -/
theorem next_eq (c : Cursor) (file : String) :
    ∃ gap, c.ahead = gap ++ c.skipTrivia.ahead ∧ c.skipTrivia.place = c.place.past gap ∧
      (c.next file).1.place = c.place.past gap ∧
      match c.skipTrivia.ahead with
      | [] => (c.next file).1.kind = .endOfInput
      | first :: others =>
          (c.next file).1.kind = (Lexeme.read first others).kind ∧
            (c.next file).1.literal =
              String.ofList ((first :: others).take (Lexeme.read first others).size) ∧
            (c.next file).2 =
              ⟨(c.place.past gap).past ((first :: others).take (Lexeme.read first others).size),
                false, (first :: others).drop (Lexeme.read first others).size⟩ := by
  obtain ⟨gap, htext, hplace⟩ := Trivia.skip_past .blank c.place c.fresh c.ahead
  refine ⟨gap, htext, hplace, ?_⟩
  change (c.skipTrivia).place = _ at hplace
  rw [← hplace]
  cases h : c.skipTrivia.ahead with
  | nil => simp [next, h, Token.place]
  | cons first others => simp [next, h, Token.place]

theorem atEnd_iff : c.AtEnd file ↔ c.skipTrivia.ahead = [] := by
  obtain ⟨_, _, _, _, h⟩ := c.next_eq file
  cases hs : c.skipTrivia.ahead with
  | nil => simp_all [AtEnd, Token.isEnd]
  | cons first others =>
      simp only [hs] at h
      simp [AtEnd, Token.isEnd, h.1, Lexeme.kind_read]

/-- A token that is not the end takes characters. -/
theorem next_consumes (h : ¬c.AtEnd file) :
    (c.next file).2.ahead.length < c.ahead.length ∧
      (c.next file).1.place.Before (c.next file).2.place := by
  obtain ⟨gap, htext, _, hplace, hnext⟩ := c.next_eq file
  cases hs : c.skipTrivia.ahead with
  | nil => exact absurd (atEnd_iff.mpr hs) h
  | cons first others =>
      simp only [hs] at hnext htext
      have hpos := Lexeme.size_read_pos first others
      rw [hnext.2.2, hplace]
      refine ⟨?_, _, ?_, rfl⟩
      · rw [htext]
        simp only [List.length_append, List.length_drop, List.length_cons]
        omega
      · obtain ⟨n, hn⟩ := Nat.exists_eq_succ_of_ne_zero (Nat.ne_of_gt hpos)
        simp [hn]

/-- The next token covers a piece of the text, with a gap in front of it. -/
theorem next_located (c : Cursor) (file : String) :
    ∃ before, c.ahead = before ++ ((c.next file).1.literal.toList ++ (c.next file).2.ahead) ∧
      (c.next file).1.place = c.place.past before ∧
      (c.next file).2.place = c.place.past (before ++ (c.next file).1.literal.toList) := by
  obtain ⟨gap, htext, hplace, hfirst, hnext⟩ := c.next_eq file
  refine ⟨gap, ?_, hfirst, ?_⟩
  · cases h : c.skipTrivia.ahead with
    | nil => simpa [next, h] using htext
    | cons first others =>
        simp only [h] at hnext htext
        rw [hnext.2.1, hnext.2.2, String.toList_ofList, List.take_append_drop]
        exact htext
  · cases h : c.skipTrivia.ahead with
    | nil => simpa [next, h] using hplace
    | cons first others =>
        simp only [h] at hnext
        rw [hnext.2.1, hnext.2.2, String.toList_ofList, Place.past_append]

theorem next_written (h : ¬c.AtEnd file) : (c.next file).1.literal.isEmpty = false := by
  obtain ⟨gap, _, _, _, hnext⟩ := c.next_eq file
  cases hs : c.skipTrivia.ahead with
  | nil => exact absurd (atEnd_iff.mpr hs) h
  | cons first others =>
      simp only [hs] at hnext
      obtain ⟨n, hn⟩ := Nat.exists_eq_succ_of_ne_zero
        (Nat.ne_of_gt (Lexeme.size_read_pos first others))
      rw [hnext.2.1, hn, List.take_succ_cons]
      simp

/-- A token ends where the cursor behind it stands. -/
theorem next_stop (c : Cursor) (file : String) :
    (c.next file).1.span.stop = (c.next file).2.place.offset := by
  cases h : c.skipTrivia.ahead <;> simp [next, h]

theorem next_spanned (h : ¬c.AtEnd file) : (c.next file).1.span.isEmpty = false := by
  have hlt := (next_consumes h).2.offset_lt
  rw [← next_stop] at hlt
  have hlt : (c.next file).1.span.start < (c.next file).1.span.stop := hlt
  rw [Span.isEmpty, Span.size, beq_eq_false_iff_ne]
  omega

/-- The next token begins at the cursor or behind it. -/
theorem next_place (c : Cursor) (file : String) :
    ∃ gap, (c.next file).1.place = c.place.past gap := by
  obtain ⟨gap, _, _, h, _⟩ := c.next_eq file
  exact ⟨gap, h⟩

end Cursor

/-- From one cursor these tokens are read up to another. -/
inductive Scans (file : String) : Cursor → List Token → Cursor → Prop
  | done (c : Cursor) : Scans file c [] c
  | token {c c' : Cursor} {ts : List Token} : ¬c.AtEnd file → Scans file (c.next file).2 ts c' →
      Scans file c ((c.next file).1 :: ts) c'

namespace Scans

variable {file : String} {c c' c'' : Cursor} {ts us : List Token}

theorem append (h : Scans file c ts c') (h' : Scans file c' us c'') :
    Scans file c (ts ++ us) c'' := by
  induction h with
  | done => exact h'
  | token hend _ ih => exact .token hend (ih h')

/-- The first of some tokens are read up to a cursor from which the others are read. -/
theorem split (h : Scans file c (ts ++ us) c'') :
    ∃ c', Scans file c ts c' ∧ Scans file c' us c'' := by
  induction ts generalizing c with
  | nil => exact ⟨c, .done c, h⟩
  | cons t ts ih =>
      cases h with
      | token hend hrest =>
          obtain ⟨c', hts, hus⟩ := ih hrest
          exact ⟨c', .token hend hts, hus⟩

/-- What was read lies between the two cursors. -/
theorem within (h : Scans file c ts c') :
    ∃ piece, c.ahead = piece ++ c'.ahead ∧ c'.place = c.place.past piece := by
  induction h with
  | done c => exact ⟨[], rfl, rfl⟩
  | @token c c' ts _ _ ih =>
      obtain ⟨gap, hahead, -, hplace⟩ := c.next_located file
      obtain ⟨piece, hrest, hplace'⟩ := ih
      refine ⟨gap ++ (c.next file).1.literal.toList ++ piece, ?_, ?_⟩
      · rw [hahead, hrest]
        simp only [List.append_assoc]
      · rw [hplace', hplace, ← Place.past_append]

/-- Behind some tokens the lexer stands where the last of them ends, and on no fresh line. -/
theorem behind_last (h : Scans file c ts c') :
    c'.place.offset = ts.getLast?.elim c.place.offset (·.span.stop) ∧
      c'.fresh = (c.fresh && ts.isEmpty) := by
  induction h with
  | done => simp
  | @token c c' ts hend _ ih =>
      have hstop := c.next_stop file
      have hfresh : (c.next file).2.fresh = false := by
        cases hs : c.skipTrivia.ahead with
        | nil => exact absurd (Cursor.atEnd_iff.mpr hs) hend
        | cons first others => simp [Cursor.next, hs]
      rw [List.isEmpty_cons, Bool.and_false, ih.2, hfresh, Bool.false_and, ih.1, List.getLast?_cons]
      cases ts.getLast? <;> simp [hstop]

theorem not_isEnd (h : Scans file c ts c') : ∀ t ∈ ts, t.isEnd = false := by
  induction h with
  | done => simp
  | token hend _ ih =>
      simp only [List.forall_mem_cons]
      exact ⟨by simpa [Cursor.AtEnd] using hend, ih⟩

theorem written (h : Scans file c ts c') : ∀ t ∈ ts, t.literal.isEmpty = false := by
  induction h with
  | done => simp
  | token hend _ ih =>
      simp only [List.forall_mem_cons]
      exact ⟨Cursor.next_written hend, ih⟩

theorem spanned (h : Scans file c ts c') : ∀ t ∈ ts, t.span.isEmpty = false := by
  induction h with
  | done => simp
  | token hend _ ih =>
      simp only [List.forall_mem_cons]
      exact ⟨Cursor.next_spanned hend, ih⟩

/-- Nothing is read twice: each token lies behind the ones before it. -/
theorem pairwise_before (h : Scans file c ts c') :
    (ts ++ [(c'.next file).1]).Pairwise (fun t u => t.place.Before u.place) ∧
      ∀ t ∈ ts ++ [(c'.next file).1], ∃ gap, t.place = c.place.past gap := by
  induction h with
  | done c => simpa using c.next_place file
  | @token c c' ts hend _ ih =>
      obtain ⟨hpair, hplace⟩ := ih
      have hlt := (Cursor.next_consumes hend).2
      obtain ⟨gap, hgap⟩ := c.next_place file
      have hbehind : ∀ t ∈ ts ++ [(c'.next file).1], (c.next file).1.place.Before t.place := by
        intro t ht
        obtain ⟨cs, hcs⟩ := hplace t ht
        exact hcs ▸ hlt.trans_past cs
      refine ⟨List.pairwise_cons.mpr ⟨hbehind, hpair⟩, ?_⟩
      rw [List.cons_append, List.forall_mem_cons]
      refine ⟨⟨gap, hgap⟩, fun t ht => ?_⟩
      obtain ⟨cs, _, hcs⟩ := hbehind t ht
      exact ⟨gap ++ cs, by rw [hcs, hgap, Place.past_append]⟩

end Scans

namespace TokenStream

variable {file : String} {c c' d : Cursor} {ts : List Token}

theorem read_of_scans (h : Scans file c ts c') (hend : c'.AtEnd file) {n : Nat}
    (hn : c.ahead.length ≤ n) : read file n c = ⟨ts, (c'.next file).1⟩ := by
  induction h generalizing n with
  | done c =>
      cases n with
      | zero => rfl
      | succ n =>
          have : (c.next file).1.isEnd = true := hend
          simp [read, this]
  | @token c c' ts hc _ ih =>
      have hlt := (Cursor.next_consumes hc).1
      have hopen : (c.next file).1.isEnd = false := by simpa [Cursor.AtEnd] using hc
      cases n with
      | zero => omega
      | succ n => simp [read, hopen, ih hend (n := n) (by omega)]

theorem exists_scans (file : String) (c : Cursor) :
    ∃ ts c', Scans file c ts c' ∧ c'.AtEnd file := by
  by_cases h : c.AtEnd file
  · exact ⟨[], c, .done c, h⟩
  · have hlt := (Cursor.next_consumes h).1
    obtain ⟨ts, c', hts, hend⟩ := exists_scans file (c.next file).2
    exact ⟨_, c', .token h hts, hend⟩
termination_by c.ahead.length

theorem ofCursor_of_scans (h : Scans file c ts d) (hend : d.AtEnd file) :
    ofCursor file c = ⟨ts, (d.next file).1⟩ := read_of_scans h hend (Nat.le_refl _)

/-- The tokens depend on what is found next, not on what was skipped. -/
theorem ofCursor_congr (h : c.next file = d.next file) : ofCursor file c = ofCursor file d := by
  obtain ⟨ts, d', hts, hend⟩ := exists_scans file d
  rw [ofCursor_of_scans hts hend]
  cases hts with
  | done => exact (ofCursor_of_scans (.done c) (by rwa [Cursor.AtEnd, h])).trans (by rw [h])
  | token hopen hts =>
      have hscan : Scans file c ((c.next file).1 :: _) d' :=
        .token (by rwa [Cursor.AtEnd, h]) (by rwa [h])
      exact (ofCursor_of_scans hscan hend).trans (by rw [h])

theorem toList_of_atEnd (h : c.AtEnd file) : (ofCursor file c).toList = [(c.next file).1] := by
  rw [ofCursor_of_scans (.done c) h]
  rfl

theorem toList_of_not_atEnd (h : ¬c.AtEnd file) :
    (ofCursor file c).toList = (c.next file).1 :: (ofCursor file (c.next file).2).toList := by
  obtain ⟨ts, d, hts, hend⟩ := exists_scans file (c.next file).2
  rw [ofCursor_of_scans hts hend, ofCursor_of_scans (.token h hts) hend]
  rfl

/-- Some tokens up to a cursor are followed by those in front of it. -/
theorem toList_of_scans (h : Scans file c ts c') :
    (ofCursor file c).toList = ts ++ (ofCursor file c').toList := by
  obtain ⟨us, d, hus, hend⟩ := exists_scans file c'
  rw [ofCursor_of_scans hus hend, ofCursor_of_scans (h.append hus) hend, toList, toList,
    List.append_assoc]

theorem head?_toList (file : String) (c : Cursor) :
    (ofCursor file c).toList.head? = some (c.next file).1 := by
  by_cases h : c.AtEnd file
  · rw [toList_of_atEnd h]
    rfl
  · rw [toList_of_not_atEnd h]
    rfl

/-- A text is scanned to its end. -/
theorem ofText_iff (file source : String) (s : TokenStream) :
    ofText file source = s ↔
      ∃ c, Scans file (.ofText source.toList) s.body c ∧ c.AtEnd file ∧ (c.next file).1 = s.last := by
  constructor
  · rintro rfl
    obtain ⟨ts, c, hts, hend⟩ := exists_scans file (.ofText source.toList)
    have hread := read_of_scans hts hend (Nat.le_refl _)
    refine ⟨c, ?_, hend, ?_⟩
    · rwa [ofText, ofCursor, hread]
    · rw [ofText, ofCursor, hread]
  · rintro ⟨c, hts, hend, hlast⟩
    rw [ofText, ofCursor, read_of_scans hts hend (Nat.le_refl _), hlast]

/-- The end token is last, and nowhere else; the others cover some text. -/
structure Closed (s : TokenStream) : Prop where
  last_isEnd : s.last.isEnd = true
  body_open : ∀ t ∈ s.body, t.isEnd = false
  body_written : ∀ t ∈ s.body, t.literal.isEmpty = false

theorem closed_ofText (file source : String) : (ofText file source).Closed := by
  obtain ⟨_, hts, hend, hlast⟩ := (ofText_iff file source _).mp rfl
  exact ⟨hlast ▸ hend, hts.not_isEnd, hts.written⟩

theorem ofText_spanned (file source : String) :
    ∀ t ∈ (ofText file source).body, t.span.isEmpty = false := by
  obtain ⟨_, hts, _, _⟩ := (ofText_iff file source _).mp rfl
  exact hts.spanned

/-- Where some tokens of a text are read up to, the others are read from. -/
theorem exists_cursor_of_append {source : String} {us : List Token}
    (h : tokens source file = ts ++ us) (hus : us ≠ []) :
    ∃ c, Scans file (.ofText source.toList) ts c ∧ (ofCursor file c).toList = us := by
  obtain ⟨d, hscan, hend, hlast⟩ := (ofText_iff file source _).mp rfl
  obtain ⟨vs, u, rfl⟩ := List.eq_nil_or_concat us |>.resolve_left hus
  rw [tokens, toList, List.concat_eq_append, ← List.append_assoc] at h
  obtain ⟨hbody, hu⟩ := List.append_inj' h rfl
  rw [hbody] at hscan
  obtain ⟨c, hts, hvs⟩ := hscan.split
  refine ⟨c, hts, ?_⟩
  rw [ofCursor_of_scans hvs hend, hlast, toList, hu, List.concat_eq_append]

/-- Each token of a text is the next one behind some of the text and a gap. -/
theorem exists_cursor_of_mem {source : String} {t : Token} (ht : t ∈ tokens source file) :
    ∃ (c : Cursor) (before : List Char), (c.next file).1 = t ∧
      source.toList = before ++ c.skipTrivia.ahead ∧
      c.skipTrivia.place = Place.start.past before := by
  obtain ⟨us, vs, htokens⟩ := List.append_of_mem ht
  obtain ⟨c, hus, hvs⟩ := exists_cursor_of_append htokens (List.cons_ne_nil t vs)
  obtain ⟨piece, htext, hplace⟩ := hus.within
  obtain ⟨gap, hahead, hskip, -⟩ := c.next_eq file
  have hhead := head?_toList file c
  rw [hvs] at hhead
  refine ⟨c, piece ++ gap, (Option.some.inj hhead).symm, ?_, ?_⟩
  · rw [List.append_assoc, ← hahead]
    exact htext
  · rw [hskip, hplace, Place.past_append]
    rfl

/-- The tokens in front of a cursor begin behind what is skipped. -/
theorem le_start : ∀ t ∈ (ofCursor file c).toList, c.skipTrivia.place.offset ≤ t.span.start := by
  obtain ⟨gap, -, hskip, hfirst, -⟩ := c.next_eq file
  have hstart : c.skipTrivia.place.offset = (c.next file).1.span.start :=
    congrArg Place.offset (hskip.trans hfirst.symm)
  obtain ⟨ts, d, hts, hend⟩ := exists_scans file c
  have hpairs : (ofCursor file c).toList.Pairwise fun t u => t.place.Before u.place := by
    rw [ofCursor_of_scans hts hend]
    exact hts.pairwise_before.1
  obtain ⟨us, hus⟩ := List.head?_eq_some_iff.mp (head?_toList file c)
  rw [hus] at hpairs ⊢
  rw [hstart]
  refine List.forall_mem_cons.mpr ⟨Nat.le_refl _, fun t ht => Nat.le_of_lt ?_⟩
  exact ((List.pairwise_cons.mp hpairs).1 t ht).offset_lt

/-- The tokens of a text come in the order of their places. -/
theorem ofText_pairwise (file source : String) :
    (ofText file source).toList.Pairwise fun t u => t.place.Before u.place := by
  obtain ⟨_, hts, _, hlast⟩ := (ofText_iff file source _).mp rfl
  rw [toList, ← hlast]
  exact hts.pairwise_before.1

end TokenStream

end Clipper
