import Clipper.Proofs.Lexing.Append
import Clipper.Proofs.Position.Tiling

/-!
What stands behind a gap. Skipping a gap leads to its end, and there the lexer goes on with the
tokens that are left.
-/

namespace Clipper

namespace Trivia

variable {p : Place} {fresh : Bool} {text note behind gap : List Char}

theorem skip_note (hnote : '\n' ∉ note) (text : List Char) :
    skip .line p fresh (note ++ text) = skip .line (p.past note) fresh text := by
  induction note generalizing p with
  | nil => rfl
  | cons c cs ih =>
      rw [List.mem_cons, not_or] at hnote
      rw [List.cons_append, skip, if_neg (Ne.symm hnote.1), ih hnote.2, Place.past_cons]

theorem skip_stopsLine (h : StopsLine text) : skip .line p fresh text = skip .blank p fresh text := by
  cases text with
  | nil => rfl
  | cons c cs =>
      obtain rfl : c = '\n' := h c rfl
      rw [skip, if_pos rfl, skip_single (by simp) (by simp) (by simp), if_pos Text.isBlank_newline,
        beq_self_eq_true, Bool.or_true]

theorem Unmarked.of_cons {c : Char} {cs : List Char} (h : Unmarked (c :: cs)) :
    Unmarked cs ∧ ∀ ds, c = '*' → cs = '/' :: ds → False := by
  refine ⟨fun hmark => h (hmark.trans (List.suffix_cons c cs).isInfix), ?_⟩
  rintro ds rfl rfl
  exact h (List.prefix_append ['*', '/'] ds).isInfix

/-- A block comment goes on as long as the mark that ends it does not come. -/
theorem skip_block (hnote : Unmarked note) (htext : ∀ c ∈ text.head?, c ≠ '/') :
    skip .block p fresh (note ++ text) =
      skip .block (p.past note) (fresh || note.contains '\n') text := by
  induction note generalizing p fresh with
  | nil => simp
  | cons c cs ih =>
      obtain ⟨hcs, hc⟩ := hnote.of_cons
      rw [List.cons_append, skip, ih hcs, Place.past_cons, List.contains_cons, Bool.or_assoc,
        BEq.comm (a := '\n') (b := c)]
      cases cs with
      | nil =>
          rintro ds - rfl
          exact htext '/' rfl rfl
      | cons d cs => simpa using hc

theorem skip_mark {mark : Char} (h : mark = '/' ∨ mark = '&') (text : List Char) :
    skip .blank p fresh (mark :: mark :: text) = skip .line ((p.step mark).step mark) fresh text := by
  rcases h with rfl | rfl <;> rfl

theorem skip_isBlank {c : Char} (hc : Text.isBlank c = true) (text : List Char) :
    skip .blank p fresh (c :: text) = skip .blank (p.step c) (fresh || c == '\n') text := by
  have hnone : ∀ d, Text.isBlank d = false → c ≠ d := by
    rintro d hd rfl
    rw [hc] at hd
    cases hd
  rw [skip_single, if_pos hc]
  · exact fun _ heq => absurd heq (hnone '/' (by decide))
  · exact fun _ heq => absurd heq (hnone '&' (by decide))
  · exact fun _ heq => absurd heq (hnone '/' (by decide))

theorem skip_directive (text : List Char) :
    skip .blank p true ('#' :: text) = skip .line (p.step '#') true text := by
  rw [skip_single (by simp) (by simp) (by simp), if_neg (by decide), if_pos (by decide)]

/-- Behind a gap skipping goes on as it would from there. -/
theorem Gap.skip (h : Gap behind fresh gap) (p : Place) :
    Trivia.skip .blank p fresh (gap ++ behind) =
      Trivia.skip .blank (p.past gap) (fresh || gap.contains '\n') behind := by
  induction h generalizing p with
  | nothing => simp
  | @blank fresh c gap hblank _ ih =>
      rw [List.cons_append, skip_isBlank hblank, ih, Place.past_cons, List.contains_cons,
        Bool.or_assoc, BEq.comm (a := '\n') (b := c)]
  | @lineComment fresh mark note gap hmark hnote hstop _ ih =>
      have hcontains : (mark :: mark :: (note ++ gap)).contains '\n' = gap.contains '\n' := by
        rcases hmark with rfl | rfl <;> simp [hnote]
      rw [hcontains]
      simp only [List.cons_append, List.append_assoc]
      rw [skip_mark hmark, skip_note hnote, skip_stopsLine hstop, ih, Place.past_cons,
        Place.past_cons, Place.past_append]
  | @directive note gap hnote hstop _ ih =>
      simp only [List.cons_append, List.append_assoc]
      rw [skip_directive, skip_note hnote, skip_stopsLine hstop, ih, Place.past_cons,
        Place.past_append, Bool.true_or, Bool.true_or]
  | @blockComment fresh note gap hnote _ ih =>
      have hopen : ∀ text, Trivia.skip .blank p fresh ('/' :: '*' :: text) =
          Trivia.skip .block ((p.step '/').step '*') fresh text := fun _ => rfl
      have hcontains : ('/' :: '*' :: (note ++ '*' :: '/' :: gap)).contains '\n' =
          (note.contains '\n' || gap.contains '\n') := by simp
      rw [hcontains]
      simp only [List.cons_append, List.append_assoc]
      rw [hopen, skip_block hnote (by simp), Trivia.skip, ih, Place.past_cons, Place.past_cons,
        Place.past_append, Place.past_cons, Place.past_cons, Bool.or_assoc]
  | @openComment fresh note hbehind hnote =>
      have hopen : Trivia.skip .blank p fresh ('/' :: '*' :: (note ++ [])) =
          Trivia.skip .block ((p.step '/').step '*') fresh (note ++ []) := rfl
      have hcontains : ('/' :: '*' :: note).contains '\n' = note.contains '\n' := by simp
      rw [hcontains, hbehind, List.cons_append, List.cons_append, hopen,
        skip_block hnote (by simp), Place.past_cons, Place.past_cons, Trivia.skip, Trivia.skip]

end Trivia

/-! ### Places between the tokens -/

namespace Place

variable {text before before' behind behind' : List Char}

theorem exists_append_of_byteSize_le (h : text = before ++ behind) (h' : text = before' ++ behind')
    (hle : byteSize before ≤ byteSize before') : ∃ piece, before' = before ++ piece := by
  rcases List.append_eq_append_iff.mp (h.symm.trans h') with ⟨piece, hpiece, -⟩ | ⟨piece, rfl, rfl⟩
  · exact ⟨piece, hpiece⟩
  · have hsize : byteSize (before' ++ piece) = byteSize before' := by
      have := byteSize_append before' piece
      omega
    exact ⟨[], by rw [List.append_nil, byteSize_inj (h.symm.trans h') hsize]⟩

theorem byteSize_lt (h : text = before ++ behind) (hbehind : behind ≠ []) :
    byteSize before < byteSize text := by
  obtain ⟨c, cs, rfl⟩ := List.exists_cons_of_ne_nil hbehind
  have := c.utf8Size_pos
  rw [h, byteSize_append, byteSize]
  omega

theorem offset_past_start (cs : List Char) : (start.past cs).offset = byteSize cs :=
  (past_offset start cs).trans (Nat.zero_add _)

end Place

namespace Tiling

variable {source : String} {ts us : List Token} {t : Token} {before behind : List Char}

theorem start_le_stop (h : Tiling source ts) (ht : t ∈ ts) : t.span.start ≤ t.span.stop := by
  obtain ⟨b, b', -, hstart, hstop⟩ := h.slices t ht
  rw [Place.byteSize_append] at hstop
  omega

/-- A token that begins in front of more text or further on ends behind that place. -/
theorem lt_stop (h : Tiling source ts) (htext : source.toList = before ++ behind)
    (hbehind : behind ≠ []) (ht : t ∈ ts) (hle : Place.byteSize before ≤ t.span.start) :
    Place.byteSize before < t.span.stop := by
  cases hend : t.isEnd with
  | false => exact Nat.lt_of_le_of_lt hle (h.spanned t ht hend)
  | true =>
      obtain ⟨body, last, rfl, hbody, -, hspan⟩ := h.closed
      rcases List.mem_append.mp ht with ht | ht
      · rw [hbody t ht] at hend
        cases hend
      · rw [List.mem_singleton.mp ht, hspan, ← Place.byteSize_toList]
        exact Place.byteSize_lt htext hbehind

/-- Some tokens with more text behind the last of them are not all tokens. -/
theorem ne_nil (h : Tiling source (ts ++ us)) (htext : source.toList = before ++ behind)
    (hbehind : behind ≠ []) (hle : lastStop ts ≤ Place.byteSize before) : us ≠ [] := by
  rintro rfl
  obtain ⟨body, last, hlast, -, -, hspan⟩ := h.closed
  have hlt := Place.byteSize_lt htext hbehind
  rw [List.append_nil] at hlast
  rw [hlast, lastStop, List.getLast?_concat, Option.elim_some, hspan] at hle
  rw [Place.byteSize_toList] at hlt
  exact absurd hlt (Nat.not_lt.mpr hle)

/-- Of some tokens none ends behind the last. -/
theorem le_lastStop (h : Tiling source (ts ++ us)) : ∀ t ∈ ts, t.span.stop ≤ lastStop ts := by
  rcases List.eq_nil_or_concat ts with rfl | ⟨init, last, rfl⟩
  · exact fun _ hmem => nomatch hmem
  · rw [List.concat_eq_append] at h ⊢
    have hordered := (List.pairwise_append.mp (List.pairwise_append.mp h.ordered).1).2.2
    have hlast := h.start_le_stop (t := last) (by simp)
    rw [lastStop, List.getLast?_concat]
    intro t ht
    rcases List.mem_append.mp ht with ht | ht
    · exact (hordered t ht last List.mem_cons_self).trans hlast
    · rw [List.mem_singleton.mp ht]
      exact Nat.le_refl _

/-- Behind a token that ends behind a place all others do so. -/
theorem lt_stop_of_lt {n : Nat} (h : Tiling source (ts ++ t :: us)) (ht : n < t.span.stop) :
    ∀ u ∈ t :: us, n < u.span.stop := by
  have hordered := (List.pairwise_cons.mp (List.pairwise_append.mp h.ordered).2.1).1
  refine List.forall_mem_cons.mpr ⟨ht, fun u hu => ?_⟩
  have := h.start_le_stop (t := u) (by simp [hu])
  have := hordered u hu
  omega

/-- The line that a token ends on is counted by a part of what stands in front of a place behind
it. -/
theorem exists_piece_of_le (h : Tiling source ts) (ht : t ∈ ts)
    (htext : source.toList = before ++ behind) (hle : t.span.stop ≤ Place.byteSize before) :
    ∃ piece gap, before = piece ++ gap ∧ Place.byteSize piece = t.span.stop ∧
      t.endLine = 1 + piece.count '\n' := by
  obtain ⟨-, piece, b, hpiece, hsize, hline, -⟩ := h.stops t ht
  obtain ⟨gap, hgap⟩ := Place.exists_append_of_byteSize_le hpiece htext (hsize.trans_le hle)
  exact ⟨piece, gap, hgap, hsize, hline⟩

end Tiling

/-! ### What is read behind a gap -/

section

variable {source file : String} {front gap rest : List Char} {ts us : List Token}

/-- Behind some tokens of a text the lexer goes on with the others. -/
theorem toList_ofCursor_of_lastStop (htokens : tokens source file = ts ++ us) (hus : us ≠ [])
    (htext : source.toList = front ++ rest) (hfront : Place.byteSize front = lastStop ts) :
    (TokenStream.ofCursor file ⟨Place.start.past front, ts.isEmpty, rest⟩).toList = us := by
  obtain ⟨c, hts, hus⟩ := TokenStream.exists_cursor_of_append htokens hus
  obtain ⟨piece, hpiece, hplace⟩ := hts.within
  obtain ⟨hoffset, hfresh⟩ := hts.behind_last
  have hpiece : source.toList = piece ++ c.ahead := hpiece
  have hplace : c.place = Place.start.past piece := hplace
  have hoffset : c.place.offset = lastStop ts := hoffset
  rw [hplace, Place.offset_past_start, ← hfront] at hoffset
  obtain rfl := Place.byteSize_inj (hpiece.symm.trans htext) hoffset
  obtain rfl := List.append_cancel_left (hpiece.symm.trans htext)
  have hfresh : c.fresh = ts.isEmpty := hfresh
  rw [← hplace, ← hfresh]
  exact hus

/-- So it does behind a gap. The line there is fresh if the gap ends it, or begins the text. -/
theorem toList_ofCursor_of_gap (htokens : tokens source file = ts ++ us) (hus : us ≠ [])
    (htext : source.toList = front ++ (gap ++ rest)) (hfront : Place.byteSize front = lastStop ts)
    (hgap : Trivia.Gap rest ts.isEmpty gap) :
    (TokenStream.ofCursor file
      ⟨Place.start.past (front ++ gap), ts.isEmpty || gap.contains '\n', rest⟩).toList = us := by
  rw [← toList_ofCursor_of_lastStop htokens hus htext hfront, Place.past_append]
  exact congrArg _ (TokenStream.ofCursor_congr (Cursor.next_of_skipTrivia (hgap.skip _).symm))

end

end Clipper
