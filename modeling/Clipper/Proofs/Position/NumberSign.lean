import Clipper.Proofs.Lexing.Shape
import Clipper.Proofs.Position.Gaps
import Clipper.Proofs.Position.Illegal

/-!
The number sign. On a line on which a token ends it is an operator, and elsewhere it begins a
directive that takes the rest of its line.
-/

namespace Clipper

/-- A character in a joined text is in one of its pieces. -/
theorem append_eq_append_cons {α : Type} {xs ys as bs : List α} {c : α}
    (h : xs ++ ys = as ++ c :: bs) :
    (∃ zs, as = xs ++ zs ∧ ys = zs ++ c :: bs) ∨ ∃ zs, xs = as ++ c :: zs := by
  rcases List.append_eq_append_iff.mp h with hleft | ⟨zs, rfl, hzs⟩
  · exact .inl hleft
  · cases zs with
    | nil => exact .inl ⟨[], by simp, by simpa using hzs.symm⟩
    | cons z zs =>
        obtain ⟨rfl, -⟩ := List.cons.inj hzs
        exact .inr ⟨zs, rfl⟩

namespace Trivia

variable {p : Place} {fresh : Bool} {text note behind gap : List Char}

/-! ### Number signs in a gap -/

/-- What was written since a comment or a directive line began, as long as it goes on. A directive
line may only begin where `directive` holds. -/
inductive Running (directive : Prop) : List Char → Prop
  | lineComment {mark : Char} {note : List Char} : mark = '/' ∨ mark = '&' → '\n' ∉ note →
      Running directive (mark :: mark :: note)
  | blockComment {note : List Char} : Unmarked note → Running directive ('/' :: '*' :: note)
  | directive {note : List Char} : directive → '\n' ∉ note → Running directive ('#' :: note)

theorem Running.imp {d d' : Prop} (h : Running d note) (hd : d → d') : Running d' note := by
  cases h with
  | lineComment hmark hnote => exact .lineComment hmark hnote
  | blockComment hnote => exact .blockComment hnote
  | directive h hnote => exact .directive (hd h) hnote

/-- A number sign in a comment or a directive line is passed over. -/
theorem Running.le_skip {since : List Char} (h : Running (fresh = true) since) (p : Place)
    (behind : List Char) : (p.past (since ++ ['#'])).offset ≤
      (skip .blank p fresh (since ++ '#' :: behind)).place.offset := by
  have hline : ∀ {q : Place} {note : List Char}, '\n' ∉ note →
      (q.past (note ++ ['#'])).offset ≤
        (skip .line q fresh (note ++ '#' :: behind)).place.offset := by
    intro q note hnote
    rw [skip_note hnote, skip, if_neg (by decide), Place.past_append]
    exact Trivia.le_skip ..
  cases h with
  | lineComment hmark hnote =>
      simp only [List.cons_append]
      rw [skip_mark hmark]
      exact hline hnote
  | @blockComment note hnote =>
      have hopen : skip .blank p fresh ('/' :: '*' :: (note ++ '#' :: behind)) =
          skip .block ((p.step '/').step '*') fresh (note ++ '#' :: behind) := rfl
      simp only [List.cons_append]
      rw [hopen, skip_block hnote (by simp), skip, Place.past_cons, Place.past_cons,
        Place.past_append]
      · exact Trivia.le_skip ..
      · simp
  | directive hfresh hnote =>
      subst hfresh
      simp only [List.cons_append]
      rw [skip_directive]
      exact hline hnote

theorem Unmarked.left {cs ds : List Char} (h : Unmarked (cs ++ ds)) : Unmarked cs :=
  fun hmark => h (hmark.trans (List.prefix_append cs ds).isInfix)

/-- The text `before` is a whole gap in front of `rest`, or one with a comment or a directive line
behind it that still goes on. -/
def Midst (rest : List Char) (fresh : Bool) (before : List Char) : Prop :=
  Gap rest fresh before ∨ ∃ front since, before = front ++ since ∧
    Gap (since ++ rest) fresh front ∧ Running ((fresh || front.contains '\n') = true) since

theorem Midst.extend {rest before : List Char} {fresh fresh' : Bool} (piece : List Char)
    (h : Midst rest fresh' before)
    (hgap : ∀ {gap behind}, gap ++ behind = before ++ rest → Gap behind fresh' gap →
      Gap behind fresh (piece ++ gap))
    (hfresh : (fresh || piece.contains '\n') = fresh') : Midst rest fresh (piece ++ before) := by
  rcases h with h | ⟨front, since, rfl, h, hsince⟩
  · exact .inl (hgap rfl h)
  · refine .inr ⟨piece ++ front, since, (List.append_assoc ..).symm, hgap (by simp) h, ?_⟩
    rw [← hfresh] at hsince
    simpa only [List.contains_append, Bool.or_assoc] using hsince

/-- A number sign in a gap begins a directive line, or a comment or a directive line in front of it
still goes on. -/
theorem Gap.midst {before after : List Char} (h : Gap behind fresh (before ++ '#' :: after)) :
    Midst ('#' :: (after ++ behind)) fresh before := by
  generalize hgap : before ++ '#' :: after = gap at h
  induction h generalizing before with
  | nothing => simp at hgap
  | @blank fresh c gap hblank _ ih =>
      cases before with
      | nil => exact .inl .nothing
      | cons d before =>
          obtain ⟨rfl, rfl⟩ := List.cons.inj hgap
          refine (ih rfl).extend [d] (fun _ h => .blank hblank h) ?_
          rw [List.contains_cons, List.contains_nil, Bool.or_false, BEq.comm]
  | @lineComment fresh mark note gap hmark hnote hstop _ ih =>
      rcases before with _ | ⟨d, _ | ⟨d', before⟩⟩
      · exact .inl .nothing
      · obtain ⟨rfl, hsign⟩ := List.cons.inj hgap
        obtain ⟨rfl, -⟩ := List.cons.inj hsign
        simp at hmark
      · simp only [List.cons_append, List.cons.injEq] at hgap
        obtain ⟨rfl, rfl, hrest⟩ := hgap
        rcases append_eq_append_cons hrest.symm with ⟨before, rfl, rfl⟩ | ⟨zs, rfl⟩
        · refine (ih rfl).extend (d' :: d' :: note) (fun hbehind h => ?_) ?_
          · refine .lineComment hmark hnote ?_ h
            rw [hbehind]
            simpa only [List.append_assoc, List.cons_append] using hstop
          · rcases hmark with rfl | rfl <;> simp [hnote]
        · exact .inr ⟨[], _, rfl, .nothing, .lineComment hmark fun h => hnote (by simp [h])⟩
  | @directive note gap hnote hstop _ ih =>
      cases before with
      | nil => exact .inl .nothing
      | cons d before =>
          obtain ⟨rfl, hrest⟩ := List.cons.inj hgap
          rcases append_eq_append_cons hrest.symm with ⟨before, rfl, rfl⟩ | ⟨zs, rfl⟩
          · refine (ih rfl).extend ('#' :: note) (fun hbehind h => ?_) (Bool.true_or _)
            refine .directive hnote ?_ h
            rw [hbehind]
            simpa only [List.append_assoc, List.cons_append] using hstop
          · exact .inr ⟨[], _, rfl, .nothing, .directive rfl fun h => hnote (by simp [h])⟩
  | @blockComment fresh note gap hnote _ ih =>
      rcases before with _ | ⟨d, _ | ⟨d', before⟩⟩
      · exact .inl .nothing
      · simp at hgap
      · simp only [List.cons_append, List.cons.injEq] at hgap
        obtain ⟨rfl, rfl, hrest⟩ := hgap
        rcases append_eq_append_cons hrest.symm with ⟨mid, rfl, hmid⟩ | ⟨zs, rfl⟩
        · rcases mid with _ | ⟨e, _ | ⟨e', before⟩⟩
          · simp at hmid
          · simp at hmid
          · simp only [List.cons_append, List.cons.injEq] at hmid
            obtain ⟨rfl, rfl, rfl⟩ := hmid
            have hmidst := (ih rfl).extend ('/' :: '*' :: (note ++ ['*', '/']))
              (fun _ h => by simpa using h.blockComment hnote) (by simp)
            simpa using hmidst
        · exact .inr ⟨[], _, rfl, .nothing, .blockComment hnote.left⟩
  | @openComment fresh note hbehind hnote =>
      rcases before with _ | ⟨d, _ | ⟨d', before⟩⟩
      · exact .inl .nothing
      · simp at hgap
      · simp only [List.cons_append, List.cons.injEq] at hgap
        obtain ⟨rfl, rfl, rfl⟩ := hgap
        exact .inr ⟨[], _, rfl, .nothing, .blockComment hnote.left⟩

end Trivia

/-! ### Number signs in a token -/

/-- A spelling has a number sign where a text that is spelled so has one. -/
theorem Spelt.numberSign {spellings : List String} {c : Char} {cs : List Char}
    (h : Spelt spellings (c :: cs)) (hsign : '#' ∈ cs) : ∃ s ∈ spellings, '#' ∈ s.toList.tail := by
  obtain ⟨s, hs, hsame⟩ := h
  have hfolded := Text.sameWord_iff.mp hsame
  rw [Text.folded, Text.folded, String.toList_ofList, List.map_cons] at hfolded
  obtain ⟨d, ds, hlist, -, hds⟩ := List.map_eq_cons_iff.mp hfolded
  obtain ⟨e, he, hsame⟩ := List.mem_map.mp (hds ▸ List.mem_map_of_mem hsign)
  obtain rfl : e = '#' := Text.eq_of_toLower hsame (by decide)
  exact ⟨s, hs, by rw [hlist]; exact he⟩

/-- Of all tokens only strings hold number signs behind their first character. -/
theorem Lexeme.Shape.string_of_numberSign {c : Char} {cs rest : List Char} {k : TokenKind}
    (h : Shape (c :: cs) rest k) (hsign : '#' ∈ cs) : k = .string := by
  have hdigit : ('#' : Char).isDigit = false := by decide
  cases k with
  | string => rfl
  | identifier =>
      obtain ⟨⟨d, ds, heq, -, hds⟩, -⟩ := h
      obtain ⟨rfl, rfl⟩ := List.cons.inj heq
      exact absurd (hds '#' hsign) (by decide)
  | keyword k =>
      obtain ⟨s, hs, hmem⟩ := ((h.1 k).mpr rfl).numberSign hsign
      have hall : ∀ k ∈ Keyword.all, ∀ s ∈ k.spellings, '#' ∉ s.toList.tail := by decide
      exact absurd hmem (hall k k.mem_all s hs)
  | operator o =>
      obtain ⟨s, hs, hmem⟩ := ((h o).mpr rfl).numberSign hsign
      have hall : ∀ o ∈ Operator.all, ∀ s ∈ o.spellings, '#' ∉ s.toList.tail := by decide
      exact absurd hmem (hall o o.mem_all s hs)
  | punctuation p =>
      obtain ⟨s, hs, hmem⟩ := ((h p).mpr rfl).numberSign hsign
      have hall : ∀ p ∈ Punctuation.all, ∀ s ∈ p.canonical :: p.aliases, '#' ∉ s.toList.tail := by
        decide
      exact absurd hmem (hall p p.mem_all s hs)
  | integer =>
      have := h.1.2 '#' (List.mem_cons_of_mem c hsign)
      simp [hdigit] at this
  | float =>
      obtain ⟨⟨ds, es, heq, hall, -⟩, -⟩ := h
      have hmem : '#' ∈ ds ++ '.' :: es := heq ▸ List.mem_cons_of_mem c hsign
      have := hall '#' (by simpa using hmem)
      simp [hdigit] at this
  | date =>
      obtain ⟨⟨ds, es, fs, hds, hes, hfs, heq⟩, -⟩ := h
      have hmem : '#' ∈ ds ++ '/' :: (es ++ '/' :: fs) := heq ▸ List.mem_cons_of_mem c hsign
      have hmem : '#' ∈ ds ∨ '#' ∈ es ∨ '#' ∈ fs := by simpa using hmem
      rcases hmem with hmem | hmem | hmem
      · simp [hds.2 _ hmem] at hdigit
      · simp [hes.2 _ hmem] at hdigit
      · simp [hfs.2 _ hmem] at hdigit
  | illegal =>
      obtain ⟨d, heq⟩ := h
      simp [(List.cons.inj heq).2] at hsign
  | endOfInput => cases h.1

theorem Lexeme.read_numberSign (cs : List Char) : read '#' cs = ⟨.operator .notEqual, 1⟩ := by
  have hsymbol : symbol ('#' :: cs) = ⟨.operator .notEqual, 1⟩ := by rfl
  rw [read, if_neg (by decide), if_neg (by decide), if_neg (by decide), if_neg (by decide), hsymbol]

/-! ### Places -/

/-- Up to this place of the text there are some of its tokens and a whole gap behind them. -/
def Between (source file : String) (before : List Char) : Prop :=
  ∃ ts us, tokens source file = ts ++ us ∧ GapBetween source.toList ts (Place.byteSize before)

/-- A token in front of this place ends on its line. -/
def Preceded (source file : String) (before : List Char) : Prop :=
  ∃ t ∈ tokens source file, t.span.stop ≤ Place.byteSize before ∧
    t.endLine = 1 + before.count '\n'

/-- At this place a number sign is an operator. -/
def Signed (source file : String) (before : List Char) : Prop :=
  ∃ t ∈ tokens source file, t.kind = .operator .notEqual ∧ t.literal = "#" ∧
    t.span = ⟨Place.byteSize before, Place.byteSize before + 1⟩

/-- This place is in a string, a comment or a directive line. -/
inductive Inside (source file : String) (before : List Char) : Prop
  | string {t : Token} : t ∈ tokens source file → t.kind = .string →
      t.span.start < Place.byteSize before → Place.byteSize before < t.span.stop →
      Inside source file before
  | running {front since : List Char} : before = front ++ since → Between source file front →
      Trivia.Running (¬Preceded source file front) since → Inside source file before

section

variable {source file : String} {before behind : List Char}

/-- Behind the last token that ends in front of a place there may not be the end of a line. Line
ends inside the token do not count. -/
theorem preceded_iff_of_last {front gap : List Char} {t : Token}
    (htext : source.toList = front ++ gap ++ behind) (ht : t ∈ tokens source file)
    (hstop : Place.byteSize front = t.span.stop)
    (hlast : ∀ u ∈ tokens source file, u.span.stop ≤ Place.byteSize (front ++ gap) →
      u.span.stop ≤ t.span.stop) :
    Preceded source file (front ++ gap) ↔ '\n' ∉ gap := by
  have htiling := tokens_tiling source file
  rw [← List.count_eq_zero]
  rw [List.append_assoc] at htext
  constructor
  · rintro ⟨u, hu, hle, hend⟩
    obtain ⟨piece, gap', rfl, -, hline⟩ :=
      htiling.exists_piece_of_le hu htext ((hlast u hu hle).trans_eq hstop.symm)
    rw [hline, List.count_append, List.count_append] at hend
    omega
  · intro hgap
    obtain ⟨piece, gap', hpiece, hsize, hline⟩ :=
      htiling.exists_piece_of_le ht htext (Nat.le_of_eq hstop.symm)
    have hfront : piece ++ gap' = front ++ [] := hpiece.symm.trans (List.append_nil front).symm
    obtain rfl := Place.byteSize_inj hfront (hsize.trans hstop.symm)
    refine ⟨t, ht, ?_, ?_⟩
    · rw [Place.byteSize_append, hstop]
      exact Nat.le_add_right _ _
    · rw [hline, List.count_append, hgap, Nat.add_zero]

/-- Behind some tokens and a gap one of them ends on the line unless the gap ends it, or there are
none. -/
theorem preceded_iff_of_gap {ts us : List Token} {front gap : List Char}
    (htokens : tokens source file = ts ++ us) (htext : source.toList = front ++ gap ++ behind)
    (hfront : Place.byteSize front = lastStop ts)
    (hus : ∀ u ∈ us, Place.byteSize (front ++ gap) < u.span.stop) :
    Preceded source file (front ++ gap) ↔ (ts.isEmpty || gap.contains '\n') = false := by
  have hfirst : ∀ u ∈ tokens source file, u.span.stop ≤ Place.byteSize (front ++ gap) → u ∈ ts := by
    intro u hu hle
    rw [htokens] at hu
    exact (List.mem_append.mp hu).resolve_right fun hu => absurd (hus u hu) (Nat.not_lt.mpr hle)
  rcases List.eq_nil_or_concat ts with rfl | ⟨init, last, rfl⟩
  · rw [List.isEmpty_nil, Bool.true_or]
    refine iff_of_false ?_ Bool.noConfusion
    rintro ⟨u, hu, hle, -⟩
    exact nomatch hfirst u hu hle
  · have hle := (htokens ▸ tokens_tiling source file).le_lastStop
    rw [List.concat_eq_append] at htokens hfront hfirst hle ⊢
    rw [lastStop, List.getLast?_concat] at hfront hle
    rw [preceded_iff_of_last htext (by rw [htokens]; simp) hfront fun u hu hstop =>
      hle u (hfirst u hu hstop)]
    simp

/-- Where a gap ends the lexer stands, with the tokens in front of the gap read. It may begin a
directive line there unless a token in front ends on the line. -/
theorem exists_cursor_of_between (htext : source.toList = before ++ behind) (hbehind : behind ≠ [])
    (h : Between source file before) : ∃ ts c, tokens source file =
        ts ++ (TokenStream.ofCursor file c).toList ∧ c.ahead = behind ∧
      c.place = Place.start.past before ∧ (∀ t ∈ ts, t.span.stop ≤ Place.byteSize before) ∧
      (c.fresh = false ↔ Preceded source file before) := by
  obtain ⟨ts, us, htokens, front, gap, rest, htext', hfront, hsize, hgap⟩ := h
  have htext'' := (List.append_assoc front gap rest) ▸ htext'
  obtain rfl := Place.byteSize_inj (htext''.symm.trans htext) hsize
  obtain rfl := List.append_cancel_left (htext''.symm.trans htext)
  have htiling := tokens_tiling source file
  rw [htokens] at htiling
  have hle : lastStop ts ≤ Place.byteSize (front ++ gap) := by
    rw [Place.byteSize_append, hfront]
    exact Nat.le_add_right _ _
  have hus := toList_ofCursor_of_gap htokens (htiling.ne_nil htext hbehind hle) htext' hfront hgap
  refine ⟨ts, _, by rw [hus, htokens], rfl, rfl, fun t ht => (htiling.le_lastStop t ht).trans hle,
    Iff.symm ?_⟩
  refine preceded_iff_of_gap htokens htext hfront fun u hu => ?_
  refine htiling.lt_stop htext hbehind (List.mem_append_right ts hu) ?_
  rw [← hus] at hu
  rw [← Place.offset_past_start]
  exact (Trivia.le_skip ..).trans (TokenStream.le_start u hu)

/-- A token with a number sign behind its first character is a string. -/
theorem kind_of_numberSign {t : Token} (htext : source.toList = before ++ '#' :: behind)
    (ht : t ∈ tokens source file) (hstart : t.span.start < Place.byteSize before)
    (hstop : Place.byteSize before < t.span.stop) : t.kind = .string := by
  obtain ⟨b, rest, hb, hsize, hshape⟩ := tokens_shaped source file ht
  obtain ⟨b', b'', hb', hsize', hstop'⟩ := (tokens_tiling source file).slices t ht
  obtain rfl := Place.byteSize_inj (hb.symm.trans hb') (hsize.trans hsize'.symm)
  obtain ⟨piece, rfl⟩ := Place.exists_append_of_byteSize_le hb htext (by omega)
  rw [hb, List.append_assoc] at htext
  rcases append_eq_append_cons (List.append_cancel_left htext) with ⟨zs, rfl, -⟩ | ⟨zs, hliteral⟩
  · rw [← List.append_assoc, Place.byteSize_append] at hstop
    omega
  · cases piece with
    | nil =>
        rw [List.append_nil] at hstart
        omega
    | cons c cs =>
        rw [hliteral] at hshape
        exact hshape.string_of_numberSign (by simp)

/-- The first token that ends behind a place. -/
theorem exists_first_behind (file : String) (htext : source.toList = before ++ behind)
    (hbehind : behind ≠ []) :
    ∃ us t vs, tokens source file = us ++ t :: vs ∧
      (∀ u ∈ us, u.span.stop ≤ Place.byteSize before) ∧ Place.byteSize before < t.span.stop := by
  obtain ⟨body, last, hlast, -, -, hspan⟩ := (tokens_tiling source file).closed
  have hlt := Place.byteSize_lt htext hbehind
  rw [Place.byteSize_toList] at hlt
  have hsome : ((tokens source file).find? fun t => Place.byteSize before < t.span.stop).isSome := by
    rw [List.find?_isSome]
    exact ⟨last, by rw [hlast]; simp, by simpa [hspan] using hlt⟩
  obtain ⟨t, hfind⟩ := Option.isSome_iff_exists.mp hsome
  obtain ⟨ht, us, vs, htokens, hus⟩ := List.find?_eq_some_iff_append.mp hfind
  exact ⟨us, t, vs, htokens, by simpa using hus, by simpa using ht⟩

/-- A number sign in the gap in front of a token. -/
theorem between_or_inside_of_gap {us vs : List Token} {t : Token} {gap rest front : List Char}
    (htokens : tokens source file = us ++ t :: vs)
    (htext : source.toList = front ++ ((before ++ '#' :: gap) ++ rest))
    (hfront : Place.byteSize front = lastStop us)
    (ht : Place.byteSize (front ++ before) < t.span.stop)
    (hgap : Trivia.Gap rest us.isEmpty (before ++ '#' :: gap)) :
    Between source file (front ++ before) ∨ Inside source file (front ++ before) := by
  rcases hgap.midst with h | ⟨gap', since, rfl, h, hsince⟩
  · exact .inl ⟨us, t :: vs, htokens, front, before, _, by simp [htext], hfront, rfl, h⟩
  · have htext' : source.toList = front ++ gap' ++ (since ++ '#' :: (gap ++ rest)) := by
      simp [htext]
    have hbehind : ∀ u ∈ t :: vs, Place.byteSize (front ++ gap') < u.span.stop := by
      refine (htokens ▸ tokens_tiling source file).lt_stop_of_lt (Nat.lt_of_le_of_lt ?_ ht)
      simp only [Place.byteSize_append]
      omega
    refine .inr (.running (List.append_assoc ..).symm ?_ (hsince.imp fun hopen hpreceded => ?_))
    · exact ⟨us, t :: vs, htokens, front, gap', _, by rw [htext', List.append_assoc], hfront, rfl, h⟩
    · rw [preceded_iff_of_gap htokens htext' hfront hbehind, hopen] at hpreceded
      cases hpreceded

/-- A number sign outside of strings, comments and directive lines is met by the lexer. -/
theorem between_of_not_inside (htext : source.toList = before ++ '#' :: behind)
    (hout : ¬Inside source file before) : Between source file before := by
  obtain ⟨us, t, vs, htokens, hus, ht⟩ :=
    exists_first_behind file htext (List.cons_ne_nil '#' behind)
  have hmem : t ∈ tokens source file := by rw [htokens]; simp
  have hgaps := (tokens_tiling source file).gaps us t vs htokens
  rcases Nat.lt_trichotomy t.span.start (Place.byteSize before) with hstart | hstart | hstart
  · -- it is in that token
    exact absurd (.string hmem (kind_of_numberSign htext hmem hstart ht) hstart ht) hout
  · exact ⟨us, t :: vs, htokens, hstart ▸ hgaps⟩
  · -- it is in the gap in front of that token
    obtain ⟨front, gap, rest, htext', hfront, hsize, hgap⟩ := hgaps
    have hle : Place.byteSize front ≤ Place.byteSize before := by
      rw [hfront, lastStop]
      cases hlast : us.getLast? with
      | none => exact Nat.zero_le _
      | some u => exact hus u (List.mem_of_getLast? hlast)
    obtain ⟨before, rfl⟩ := Place.exists_append_of_byteSize_le htext' htext hle
    rw [htext', List.append_assoc] at htext
    rcases append_eq_append_cons (List.append_cancel_left htext) with ⟨zs, rfl, -⟩ | ⟨zs, rfl⟩
    · rw [← List.append_assoc, Place.byteSize_append, hsize] at hstart
      omega
    · exact (between_or_inside_of_gap htokens htext' hfront ht hgap).resolve_right hout

/-! ### What is read at a number sign -/

theorem Cursor.next_numberSign {c : Cursor} (hahead : c.ahead = '#' :: behind)
    (hfresh : c.fresh = false) (file : String) :
    (c.next file).1.kind = .operator .notEqual ∧ (c.next file).1.literal = "#" ∧
      (c.next file).1.span = ⟨c.place.offset, c.place.offset + 1⟩ := by
  have hskip : c.skipTrivia = c := by
    rw [skipTrivia, hahead, hfresh, Trivia.skip_single (by simp) (by simp) (by simp),
      if_neg (by decide), if_neg (by simp)]
    rw [← hahead, ← hfresh]
  simp only [next, hskip, hahead, Lexeme.read_numberSign]
  exact ⟨trivial, rfl, rfl⟩

/-- On a fresh line the rest of the line is passed over. -/
theorem TokenStream.le_start_of_directive {c : Cursor} (hahead : c.ahead = '#' :: behind)
    (hfresh : c.fresh = true) : ∀ t ∈ (ofCursor file c).toList,
      c.place.offset + Place.byteSize ('#' :: behind.takeWhile (· != '\n')) ≤ t.span.start := by
  have hnote : '\n' ∉ behind.takeWhile (· != '\n') := fun h => by
    simpa using List.mem_takeWhile_imp h
  have hskip : c.skipTrivia = Trivia.skip .line
      (c.place.past ('#' :: behind.takeWhile (· != '\n'))) true (behind.dropWhile (· != '\n')) := by
    rw [Cursor.skipTrivia, hahead, hfresh, Trivia.skip_directive, Place.past_cons,
      ← Trivia.skip_note hnote, List.takeWhile_append_dropWhile]
  intro t ht
  have hle := le_start t ht
  rw [hskip] at hle
  rw [← Place.past_offset]
  exact (Trivia.le_skip ..).trans hle

/-- If no token in front ends on its line, a number sign takes the rest of the line. -/
theorem passed_of_not_preceded (htext : source.toList = before ++ '#' :: behind)
    (h : Between source file before) (hnone : ¬Preceded source file before) :
    ∀ t ∈ tokens source file, t.span.stop ≤ Place.byteSize before ∨
      Place.byteSize (before ++ '#' :: behind.takeWhile (· != '\n')) ≤ t.span.start := by
  obtain ⟨ts, c, htokens, hahead, hplace, hstops, hfresh⟩ :=
    exists_cursor_of_between htext (List.cons_ne_nil '#' behind) h
  intro t ht
  rw [htokens] at ht
  refine (List.mem_append.mp ht).imp (hstops t) fun ht => ?_
  have hle := TokenStream.le_start_of_directive hahead (by simpa [← hfresh] using hnone) t ht
  rwa [hplace, Place.offset_past_start, ← Place.byteSize_append] at hle

/-- Where the lexer meets a number sign it is an operator if a token in front ends on its line. -/
theorem signed_iff_preceded (htext : source.toList = before ++ '#' :: behind)
    (h : Between source file before) :
    Signed source file before ↔ Preceded source file before := by
  constructor
  · rintro ⟨t, ht, -, -, hspan⟩
    by_contra hnone
    have hapart := passed_of_not_preceded htext h hnone t ht
    have hstart : t.span.start = Place.byteSize before := congrArg Span.start hspan
    have hstop : t.span.stop = Place.byteSize before + 1 := congrArg Span.stop hspan
    have := ('#' : Char).utf8Size_pos
    rw [Place.byteSize_append, Place.byteSize] at hapart
    omega
  · intro hpreceded
    obtain ⟨ts, c, htokens, hahead, hplace, -, hfresh⟩ :=
      exists_cursor_of_between htext (List.cons_ne_nil '#' behind) h
    obtain ⟨hkind, hliteral, hspan⟩ := c.next_numberSign hahead (hfresh.mpr hpreceded) file
    have hoffset : c.place.offset = Place.byteSize before := by
      rw [hplace, Place.offset_past_start]
    refine ⟨_, ?_, hkind, hliteral, hoffset ▸ hspan⟩
    rw [htokens]
    exact List.mem_append_right ts (List.mem_of_mem_head? (TokenStream.head?_toList file c))

/-- In strings, comments and directive lines a number sign is no operator. -/
theorem not_signed_of_inside (htext : source.toList = before ++ '#' :: behind)
    (h : Inside source file before) : ¬Signed source file before := by
  rintro ⟨u, hu, hkind, -, hspan⟩
  have hstart : u.span.start = Place.byteSize before := congrArg Span.start hspan
  have hstop : u.span.stop = Place.byteSize before + 1 := congrArg Span.stop hspan
  cases h with
  | @string t ht hk htstart htstop =>
      have hne : t ≠ u := by
        rintro rfl
        rw [hk] at hkind
        cases hkind
      obtain ⟨-, hapart⟩ := tokens_apart hu ht hne
      omega
  | @running front since hbefore hbetween hsince =>
      subst hbefore
      rw [List.append_assoc] at htext
      obtain ⟨ts, c, htokens, hahead, hplace, hstops, hfresh⟩ :=
        exists_cursor_of_between htext (by simp) hbetween
      have hsince := (hsince.imp fun h => by simpa [← hfresh] using h).le_skip c.place behind
      rw [← hahead] at hsince
      have hpassed : (c.place.past (since ++ ['#'])).offset ≤ c.skipTrivia.place.offset := hsince
      rw [hplace, ← Place.past_append, Place.offset_past_start] at hpassed
      rw [Place.byteSize_append] at hstart hstop
      rw [htokens] at hu
      rcases List.mem_append.mp hu with hu | hu
      · have := hstops u hu
        omega
      · have := hpassed.trans (TokenStream.le_start u hu)
        simp only [Place.byteSize_append, Place.byteSize] at this
        have := ('#' : Char).utf8Size_pos
        omega

end

/-- A number sign is an operator if it is outside of strings, comments and directive lines and a
token in front of it ends on its line. Outside of them, if none does, no token comes before the end
of that line. Line ends in comments between such a token and the sign count for this, those in the
token do not. -/
theorem numberSign_signed (source file : String) {before behind : List Char}
    (htext : source.toList = before ++ '#' :: behind) :
    (Signed source file before ↔ ¬Inside source file before ∧ Preceded source file before) ∧
      (¬Inside source file before → ¬Preceded source file before → ∀ t ∈ tokens source file,
        t.span.stop ≤ Place.byteSize before ∨
          Place.byteSize (before ++ '#' :: behind.takeWhile (· != '\n')) ≤ t.span.start) ∧
      (¬Inside source file before → ∀ t ∈ tokens source file, ∀ front gap, before = front ++ gap →
        Place.byteSize front = t.span.stop →
        (∀ u ∈ tokens source file, u.span.stop ≤ Place.byteSize before →
          u.span.stop ≤ t.span.stop) →
        (Signed source file before ↔ '\n' ∉ gap)) := by
  have hsigned : ¬Inside source file before →
      (Signed source file before ↔ Preceded source file before) := fun hout =>
    signed_iff_preceded htext (between_of_not_inside htext hout)
  refine ⟨⟨fun h => ?_, fun h => (hsigned h.1).mpr h.2⟩, fun hout => ?_, fun hout => ?_⟩
  · have hout := fun hin => not_signed_of_inside htext hin h
    exact ⟨hout, (hsigned hout).mp h⟩
  · exact passed_of_not_preceded htext (between_of_not_inside htext hout)
  · rintro t ht front gap rfl hstop hlast
    rw [hsigned hout, preceded_iff_of_last htext ht hstop hlast]

/-- Behind a string over two lines, on the second of them. -/
theorem numberSign_signed_string :
    "'x\ny' # z".toList = "'x\ny' ".toList ++ '#' :: " z".toList ∧
      ¬Inside "'x\ny' # z" "t.prw" "'x\ny' ".toList ∧
      Preceded "'x\ny' # z" "t.prw" "'x\ny' ".toList := by
  have htext : "'x\ny' # z".toList = "'x\ny' ".toList ++ '#' :: " z".toList := by decide
  have hsigned : Signed "'x\ny' # z" "t.prw" "'x\ny' ".toList := by
    unfold Signed
    decide +kernel
  exact ⟨htext, (numberSign_signed "'x\ny' # z" "t.prw" htext).1.mp hsigned⟩

end Clipper
