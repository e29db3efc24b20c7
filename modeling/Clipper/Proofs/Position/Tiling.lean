import Clipper.Proofs.Position.Located

/-!
How the tokens of a text tile it. Each covers the piece of the text that its span names, one
behind the other, and what lies between them, before the first and behind the last is white
space, comments and directives.
-/

namespace Clipper

namespace Trivia

/-- What runs to the end of a line has a line end behind it, or nothing. -/
def StopsLine (behind : List Char) : Prop := ∀ c ∈ behind.head?, c = '\n'

/-- The mark that ends a block comment is not in a text. -/
def Unmarked (cs : List Char) : Prop := ¬['*', '/'] <:+: cs

/-- A text without tokens, in front of another. `fresh` tells that no token is before it on
its line, which is where a directive may begin. -/
inductive Gap (behind : List Char) : Bool → List Char → Prop
  | nothing {fresh : Bool} : Gap behind fresh []
  | blank {fresh : Bool} {c : Char} {gap : List Char} : Text.isBlank c = true →
      Gap behind (fresh || c == '\n') gap → Gap behind fresh (c :: gap)
  | lineComment {fresh : Bool} {mark : Char} {note gap : List Char} : mark = '/' ∨ mark = '&' →
      '\n' ∉ note → StopsLine (gap ++ behind) → Gap behind fresh gap →
      Gap behind fresh (mark :: mark :: (note ++ gap))
  | directive {note gap : List Char} : '\n' ∉ note → StopsLine (gap ++ behind) →
      Gap behind true gap → Gap behind true ('#' :: (note ++ gap))
  | blockComment {fresh : Bool} {note gap : List Char} : Unmarked note →
      Gap behind (fresh || note.contains '\n') gap →
      Gap behind fresh ('/' :: '*' :: (note ++ '*' :: '/' :: gap))
  /-- It runs to the end of the text. -/
  | openComment {fresh : Bool} {note : List Char} : behind = [] → Unmarked note →
      Gap behind fresh ('/' :: '*' :: note)

/-- What is left of a gap in the midst of it. -/
def Rest (behind : List Char) : Mode → Bool → List Char → Prop
  | .blank, fresh, gap => Gap behind fresh gap
  | .line, fresh, gap => ∃ note gap', gap = note ++ gap' ∧ '\n' ∉ note ∧
      StopsLine (gap' ++ behind) ∧ Gap behind fresh gap'
  | .block, fresh, gap =>
      (∃ note gap', gap = note ++ '*' :: '/' :: gap' ∧ Unmarked note ∧
        Gap behind (fresh || note.contains '\n') gap') ∨
      behind = [] ∧ Unmarked gap

theorem unmarked_nil : Unmarked [] := by
  simp [Unmarked]

theorem Unmarked.cons {c : Char} {cs : List Char} (h : Unmarked cs)
    (hc : ∀ ds, c = '*' → cs = '/' :: ds → False) : Unmarked (c :: cs) := by
  rw [Unmarked, List.infix_cons_iff]
  rintro (hbegins | hinfix)
  · obtain ⟨ds, hds⟩ := hbegins
    obtain ⟨rfl, rfl⟩ := List.cons.inj hds
    exact hc ds rfl rfl
  · exact h hinfix

/-- What is skipped is a gap. -/
theorem skip_rest (mode : Mode) (p : Place) (fresh : Bool) (text : List Char) :
    ∃ gap, text = gap ++ (skip mode p fresh text).ahead ∧
      Rest (skip mode p fresh text).ahead mode fresh gap := by
  fun_induction skip mode p fresh text with
  | case1 mode p fresh =>
      refine ⟨[], rfl, ?_⟩
      cases mode with
      | blank => exact .nothing
      | line => exact ⟨[], [], rfl, by simp, by simp [StopsLine], .nothing⟩
      | block => exact .inr ⟨rfl, unmarked_nil⟩
  | case2 p fresh cs ih =>
      obtain ⟨gap, htext, hgap⟩ := ih
      refine ⟨'\n' :: gap, by rw [List.cons_append, ← htext], [], '\n' :: gap, rfl, by simp, ?_, ?_⟩
      · simp [StopsLine]
      · apply Gap.blank Text.isBlank_newline
        rw [beq_self_eq_true, Bool.or_true]
        exact hgap
  | case3 p fresh c cs hc ih =>
      obtain ⟨gap, htext, note, gap', rfl, hnote, hstop, hgap⟩ := ih
      refine ⟨c :: (note ++ gap'), by rw [List.cons_append, ← htext], c :: note, gap', rfl, ?_, hstop,
        hgap⟩
      simpa using ⟨Ne.symm hc, hnote⟩
  | case4 p fresh cs ih =>
      obtain ⟨gap, htext, hgap⟩ := ih
      refine ⟨'*' :: '/' :: gap, by simp [← htext], .inl ⟨[], gap, rfl, unmarked_nil, ?_⟩⟩
      rw [List.contains_nil, Bool.or_false]
      exact hgap
  | case5 p fresh c cs hc ih =>
      obtain ⟨gap, htext, hgap⟩ := ih
      refine ⟨c :: gap, by rw [List.cons_append, ← htext], ?_⟩
      rcases hgap with ⟨note, gap', rfl, hnote, hgap⟩ | ⟨hend, hnote⟩
      · refine .inl ⟨c :: note, gap', rfl, hnote.cons ?_, ?_⟩
        · rintro ds rfl rfl
          exact hc _ rfl htext
        · rw [List.contains_cons, ← Bool.or_assoc, BEq.comm (a := '\n') (b := c)]
          exact hgap
      · refine .inr ⟨hend, hnote.cons ?_⟩
        rintro ds rfl rfl
        exact hc _ rfl htext
  | case6 p fresh cs ih | case7 p fresh cs ih =>
      obtain ⟨gap, htext, note, gap', rfl, hnote, hstop, hgap⟩ := ih
      refine ⟨_ :: _ :: (note ++ gap'), by rw [List.cons_append, List.cons_append, ← htext], ?_⟩
      exact .lineComment (by simp) hnote hstop hgap
  | case8 p fresh cs ih =>
      obtain ⟨gap, htext, hgap⟩ := ih
      refine ⟨'/' :: '*' :: gap, by rw [List.cons_append, List.cons_append, ← htext], ?_⟩
      rcases hgap with ⟨note, gap', rfl, hnote, hgap⟩ | ⟨hend, hnote⟩
      · exact .blockComment hnote hgap
      · exact .openComment hend hnote
  | case9 p fresh c cs _ _ _ hblank ih =>
      obtain ⟨gap, htext, hgap⟩ := ih
      exact ⟨c :: gap, by rw [List.cons_append, ← htext], .blank hblank hgap⟩
  | case10 p fresh c cs _ _ _ _ hmark ih =>
      obtain ⟨gap, htext, note, gap', rfl, hnote, hstop, hgap⟩ := ih
      obtain ⟨rfl, rfl⟩ : c = '#' ∧ fresh = true := by simpa using hmark
      exact ⟨'#' :: (note ++ gap'), by rw [List.cons_append, ← htext], .directive hnote hstop hgap⟩
  | case11 => exact ⟨[], by simp, .nothing⟩

end Trivia

/-- The gap in front of the next token. -/
theorem Cursor.next_gap (c : Cursor) (file : String) :
    ∃ gap, c.ahead = gap ++ ((c.next file).1.literal.toList ++ (c.next file).2.ahead) ∧
      (c.next file).1.place = c.place.past gap ∧
      (c.next file).2.place = c.place.past (gap ++ (c.next file).1.literal.toList) ∧
      Trivia.Gap ((c.next file).1.literal.toList ++ (c.next file).2.ahead) c.fresh gap := by
  obtain ⟨gap, htext, hplace, hbehind⟩ := c.next_located file
  obtain ⟨gap', htext', hgap⟩ := Trivia.skip_rest .blank c.place c.fresh c.ahead
  have hahead : c.skipTrivia.ahead = (c.next file).1.literal.toList ++ (c.next file).2.ahead := by
    cases h : c.skipTrivia.ahead with
    | nil => simp [Cursor.next, h]
    | cons first others => simp [Cursor.next, h]
  change Trivia.Gap c.skipTrivia.ahead c.fresh gap' at hgap
  change c.ahead = gap' ++ c.skipTrivia.ahead at htext'
  rw [hahead] at hgap htext'
  obtain rfl := List.append_cancel_right (htext.symm.trans htext')
  exact ⟨gap, htext, hplace, hbehind, hgap⟩

/-- From a place in a text on there are gaps and tokens in turn, up to its end. -/
def Tiled (text : List Char) : Bool → List Char → List Token → Prop
  | _, before, [] => before = text
  | fresh, before, t :: ts =>
      ∃ gap behind, text = before ++ (gap ++ (t.literal.toList ++ behind)) ∧
        Trivia.Gap (t.literal.toList ++ behind) fresh gap ∧
        t.span = ⟨Place.byteSize (before ++ gap),
          Place.byteSize (before ++ gap ++ t.literal.toList)⟩ ∧
        Tiled text false (before ++ gap ++ t.literal.toList) ts

theorem Scans.tiled {file : String} {c c' : Cursor} {ts : List Token} {text before : List Char}
    (h : Scans file c ts c') (hend : c'.AtEnd file) (htext : text = before ++ c.ahead)
    (hplace : c.place = Place.start.past before) :
    Tiled text c.fresh before (ts ++ [(c'.next file).1]) := by
  have hspan : ∀ {c : Cursor} {before gap : List Char}, c.place = Place.start.past before →
      (c.next file).1.place = c.place.past gap →
      (c.next file).2.place = c.place.past (gap ++ (c.next file).1.literal.toList) →
      (c.next file).1.span = ⟨Place.byteSize (before ++ gap),
        Place.byteSize (before ++ gap ++ (c.next file).1.literal.toList)⟩ := by
    intro c before gap hplace hstart hstop
    rw [hplace, ← Place.past_append] at hstart hstop
    have hstop' := (c.next_stop file).trans (congrArg Place.offset hstop)
    have hstart' : (c.next file).1.span.start = (Place.start.past (before ++ gap)).offset :=
      congrArg Place.offset hstart
    rw [Place.past_offset] at hstart' hstop'
    rw [← List.append_assoc] at hstop'
    show Span.mk _ _ = _
    rw [hstart', hstop']
    simp [Place.start]
  induction h generalizing before with
  | done c =>
      obtain ⟨gap, hahead, hstart, hstop, hgap⟩ := c.next_gap file
      refine ⟨gap, _, by rw [htext, hahead], hgap, hspan hplace hstart hstop, ?_⟩
      have hnil : (c.next file).2.ahead = [] := by
        have hskip := Cursor.atEnd_iff.mp hend
        simp [Cursor.next, hskip]
      show _ = text
      rw [htext, hahead, hnil]
      simp
  | @token c c' ts hopen _ ih =>
      obtain ⟨gap, hahead, hstart, hstop, hgap⟩ := c.next_gap file
      refine ⟨gap, _, by rw [htext, hahead], hgap, hspan hplace hstart hstop, ?_⟩
      have hfresh : (c.next file).2.fresh = false := by
        cases hskip : c.skipTrivia.ahead with
        | nil => exact absurd (Cursor.atEnd_iff.mpr hskip) hopen
        | cons first others => simp [Cursor.next, hskip]
      rw [← hfresh]
      apply ih hend
      · rw [htext, hahead]
        simp
      · rw [hstop, hplace, ← Place.past_append, List.append_assoc]

/-! ### Spans -/

/-- The piece of a text between two byte offsets, both of them between characters. -/
def Slices (text : List Char) (s : Span) (piece : List Char) : Prop :=
  ∃ before behind, text = before ++ (piece ++ behind) ∧ Place.byteSize before = s.start ∧
    Place.byteSize (before ++ piece) = s.stop

/-- The end of the last of some tokens, or the start of the text. -/
def lastStop (ts : List Token) : Nat := ts.getLast?.elim 0 (·.span.stop)

/-- Between some tokens and the next one, which begins at `start`, there is a gap. The first
gap begins on a fresh line. -/
def GapBetween (text : List Char) (ts : List Token) (start : Nat) : Prop :=
  ∃ before gap behind, text = before ++ (gap ++ behind) ∧ Place.byteSize before = lastStop ts ∧
    Place.byteSize (before ++ gap) = start ∧ Trivia.Gap behind ts.isEmpty gap

/-- Tokens and gaps make up a text. -/
structure Tiling (source : String) (ts : List Token) : Prop where
  closed : ∃ body last, ts = body ++ [last] ∧ (∀ t ∈ body, t.isEnd = false) ∧
    last.isEnd = true ∧ last.span = ⟨source.utf8ByteSize, source.utf8ByteSize⟩
  spanned : ∀ t ∈ ts, t.isEnd = false → t.span.start < t.span.stop
  slices : ∀ t ∈ ts, Slices source.toList t.span t.literal.toList
  ordered : ts.Pairwise fun t u => t.span.stop ≤ u.span.start
  gaps : ∀ before t behind, ts = before ++ t :: behind →
    GapBetween source.toList before t.span.start
  starts : ∀ t ∈ ts, Locates source.toList t.span.start t.line t.column
  stops : ∀ t ∈ ts, ∃ column, Locates source.toList t.span.stop t.endLine column

namespace Tiled

variable {text before : List Char} {fresh : Bool} {ts : List Token}

theorem slices (h : Tiled text fresh before ts) :
    ∀ t ∈ ts, Slices text t.span t.literal.toList := by
  induction ts generalizing fresh before with
  | nil => exact fun _ h => nomatch h
  | cons t ts ih =>
      obtain ⟨gap, behind, htext, _, hspan, hrest⟩ := h
      refine List.forall_mem_cons.mpr ⟨⟨before ++ gap, behind, ?_, ?_, ?_⟩, ih hrest⟩
      · rw [htext, List.append_assoc]
      · rw [hspan]
      · rw [hspan]

theorem le_start (h : Tiled text fresh before ts) :
    ∀ t ∈ ts, Place.byteSize before ≤ t.span.start := by
  induction ts generalizing fresh before with
  | nil => exact fun _ h => nomatch h
  | cons t ts ih =>
      obtain ⟨gap, behind, _, _, hspan, hrest⟩ := h
      refine List.forall_mem_cons.mpr ⟨?_, fun u hu => ?_⟩
      · rw [hspan, Place.byteSize_append]
        exact Nat.le_add_right _ _
      · have hle := ih hrest u hu
        rw [Place.byteSize_append, Place.byteSize_append] at hle
        omega

theorem ordered (h : Tiled text fresh before ts) :
    ts.Pairwise fun t u => t.span.stop ≤ u.span.start := by
  induction ts generalizing fresh before with
  | nil => exact .nil
  | cons t ts ih =>
      obtain ⟨gap, behind, _, _, hspan, hrest⟩ := h
      refine List.pairwise_cons.mpr ⟨fun u hu => ?_, ih hrest⟩
      rw [hspan]
      exact hrest.le_start u hu

theorem gaps (h : Tiled text fresh before ts) {us vs : List Token} {t : Token}
    (hts : ts = us ++ t :: vs) :
    ∃ before' gap behind, text = before' ++ (gap ++ behind) ∧
      Place.byteSize before' = us.getLast?.elim (Place.byteSize before) (·.span.stop) ∧
      Place.byteSize (before' ++ gap) = t.span.start ∧
      Trivia.Gap behind (fresh && us.isEmpty) gap := by
  induction us generalizing fresh before ts with
  | nil =>
      obtain rfl : ts = t :: vs := hts
      obtain ⟨gap, behind, htext, hgap, hspan, -⟩ := h
      refine ⟨before, gap, _, htext, rfl, by rw [hspan], ?_⟩
      rw [List.isEmpty_nil, Bool.and_true]
      exact hgap
  | cons u us ih =>
      obtain rfl : ts = u :: (us ++ t :: vs) := hts
      obtain ⟨gap, behind, _, _, hspan, hrest⟩ := h
      have hgaps := ih hrest rfl
      rw [Bool.false_and] at hgaps
      rw [List.isEmpty_cons, Bool.and_false, List.getLast?_cons]
      cases hlast : us.getLast? with
      | none =>
          rw [hlast] at hgaps
          simpa [hspan] using hgaps
      | some v =>
          rw [hlast] at hgaps
          exact hgaps

/-- At the end the whole text has been gone through. -/
theorem last_span {t : Token} (h : Tiled text fresh before (ts ++ [t])) (ht : t.literal = "") :
    t.span = ⟨Place.byteSize text, Place.byteSize text⟩ := by
  induction ts generalizing fresh before with
  | nil =>
      obtain ⟨gap, behind, _, _, hspan, hend⟩ := h
      have hend : before ++ gap ++ t.literal.toList = text := hend
      rw [hspan, hend]
      rw [ht, String.toList_empty, List.append_nil] at hend
      rw [hend]
  | cons u ts ih =>
      obtain ⟨_, _, _, _, _, hrest⟩ := h
      exact ih hrest

end Tiled

/-- The end of a token is on the line that its last character ends on. -/
theorem Token.Located.endLine {text : List Char} {t : Token} (h : t.Located text) :
    ∃ column, Locates text t.span.stop t.endLine column := by
  obtain ⟨before, behind, htext, hplace, hstop⟩ := h.exists_piece
  rw [← List.append_assoc] at htext
  have hlocates := Place.locates_past htext
  have hline : (Place.start.past (before ++ t.literal.toList)).line = t.endLine := by
    rw [Place.past_append, ← hplace, Place.past_line]
    rfl
  rw [← hstop, hline] at hlocates
  exact ⟨_, hlocates⟩

/-- The tokens of a text and the gaps between them make up the text, and each token says where
it stands. -/
theorem tokens_tiling (source file : String) : Tiling source (tokens source file) := by
  obtain ⟨c, hts, hend, hlast⟩ := (TokenStream.ofText_iff file source _).mp rfl
  have hclosed := TokenStream.closed_ofText file source
  have hliteral : (TokenStream.ofText file source).last.literal = "" := by
    have hskip := Cursor.atEnd_iff.mp hend
    rw [← hlast]
    simp [Cursor.next, hskip]
  have htiled : Tiled source.toList true [] (tokens source file) := by
    rw [tokens, TokenStream.toList, ← hlast]
    exact hts.tiled hend rfl rfl
  constructor
  · refine ⟨_, _, rfl, hclosed.body_open, hclosed.last_isEnd, ?_⟩
    rw [← Place.byteSize_toList]
    exact htiled.last_span hliteral
  · intro t ht hopen
    rcases List.mem_append.mp ht with ht | ht
    · have hspanned := TokenStream.ofText_spanned file source t ht
      rw [Span.isEmpty, Span.size, beq_eq_false_iff_ne] at hspanned
      omega
    · obtain rfl := List.mem_singleton.mp ht
      rw [hclosed.last_isEnd] at hopen
      cases hopen
  · exact htiled.slices
  · exact htiled.ordered
  · intro us t vs hts
    exact htiled.gaps hts
  · exact fun t ht => (tokens_located source file t ht).start
  · exact fun t ht => (tokens_located source file t ht).endLine

end Clipper
