import Clipper.Proofs.Lexing.Scan

/-!
A text as the end of another one. Its tokens are those that it has on its own, placed further on:
the first line goes on behind the text in front, the other lines are lines of their own.
-/

namespace Clipper

namespace Place

/-- A place in a text, as a place behind `base`, where the text begins. -/
def onward (base p : Place) : Place :=
  ⟨base.offset + p.offset, base.line + (p.line - 1),
    if p.line = 1 then base.column + (p.column - 1) else p.column⟩

/-- Lines and columns count from one. -/
structure Counted (p : Place) : Prop where
  line : 1 ≤ p.line
  column : 1 ≤ p.column

variable {base p : Place}

theorem counted_start : start.Counted := ⟨Nat.le_refl 1, Nat.le_refl 1⟩

theorem Counted.step (h : p.Counted) (c : Char) : (p.step c).Counted := by
  unfold Place.step
  split
  · exact ⟨Nat.le_add_left 1 p.line, Nat.le_refl 1⟩
  · exact ⟨h.line, Nat.le_add_left 1 p.column⟩

theorem Counted.past (h : p.Counted) (cs : List Char) : (p.past cs).Counted := by
  induction cs generalizing p with
  | nil => exact h
  | cons c cs ih => exact ih (h.step c)

theorem onward_start (base : Place) : base.onward start = base := by
  simp [onward, start]

theorem step_onward (h : p.Counted) (c : Char) :
    (base.onward p).step c = base.onward (p.step c) := by
  obtain ⟨hline, hcolumn⟩ := h
  unfold step onward
  split
  · have hnext : p.line + 1 ≠ 1 := by omega
    simp only [if_neg hnext, Nat.add_assoc, Nat.sub_add_cancel hline, Nat.add_sub_cancel]
  · by_cases hfirst : p.line = 1
    · simp only [if_pos hfirst, Nat.add_assoc, Nat.sub_add_cancel hcolumn, Nat.add_sub_cancel]
    · simp only [if_neg hfirst, Nat.add_assoc]

theorem past_onward (base : Place) (h : p.Counted) (cs : List Char) :
    (base.onward p).past cs = base.onward (p.past cs) := by
  induction cs generalizing p with
  | nil => rfl
  | cons c cs ih => rw [past_cons, past_cons, step_onward h, ih (h.step c)]

end Place

/-- A token of a text, as a token of a text that goes on with this one at `base`. -/
def Token.onward (base : Place) (t : Token) : Token :=
  { t with
    span := ⟨base.offset + t.span.start, base.offset + t.span.stop⟩
    line := (base.onward t.place).line
    column := (base.onward t.place).column }

def Cursor.onward (base : Place) (c : Cursor) : Cursor := { c with place := base.onward c.place }

theorem Trivia.skip_onward {base p : Place} (h : p.Counted) (mode : Mode) (fresh : Bool)
    (text : List Char) :
    skip mode (base.onward p) fresh text = (skip mode p fresh text).onward base := by
  fun_induction skip mode p fresh text with
  | case1 => simp [skip, Cursor.onward]
  | case2 p fresh cs ih | case3 p fresh c cs _ ih | case5 p fresh c cs _ ih
  | case9 p fresh c cs _ _ _ _ ih | case10 p fresh c cs _ _ _ _ _ ih =>
      have := ih (h.step _)
      simp_all [skip, Place.step_onward h]
  | case4 p fresh cs ih | case6 p fresh cs ih | case7 p fresh cs ih | case8 p fresh cs ih =>
      have := ih ((h.step _).step _)
      simp_all [skip, Place.step_onward h, Place.step_onward (h.step _)]
  | case11 => simp_all [skip, Cursor.onward]

namespace Cursor

variable {file : String} {base : Place} {c : Cursor}

theorem next_onward (base : Place) (h : c.place.Counted) (file : String) :
    (c.onward base).next file =
      ((c.next file).1.onward base, (c.next file).2.onward base) := by
  obtain ⟨gap, -, hplace, -⟩ := c.next_eq file
  have hcounted : c.skipTrivia.place.Counted := hplace ▸ h.past gap
  have hskip : (c.onward base).skipTrivia = c.skipTrivia.onward base :=
    Trivia.skip_onward h .blank c.fresh c.ahead
  unfold next
  rw [hskip]
  cases hs : c.skipTrivia.ahead with
  | nil => simp [onward, hs, Token.onward, Place.onward, Token.place]
  | cons first others =>
      have hpast := Place.past_onward base hcounted
        ((first :: others).take (Lexeme.read first others).size)
      simp only [onward, hs, hpast]
      rfl

theorem counted_next (h : c.place.Counted) (file : String) : (c.next file).2.place.Counted := by
  obtain ⟨before, -, -, hplace⟩ := c.next_located file
  exact hplace ▸ h.past _

theorem atEnd_onward (h : c.place.Counted) : (c.onward base).AtEnd file ↔ c.AtEnd file := by
  rw [AtEnd, AtEnd, next_onward base h]
  rfl

end Cursor

theorem Scans.onward {file : String} {base : Place} {c c' : Cursor} {ts : List Token}
    (hts : Scans file c ts c') (h : c.place.Counted) :
    Scans file (c.onward base) (ts.map (Token.onward base)) (c'.onward base) := by
  induction hts with
  | done c => exact .done _
  | @token c c' ts hend _ ih =>
      have hnext := Cursor.next_onward base h file
      have hrest := ih (Cursor.counted_next h file)
      have hfirst : (c.next file).1.onward base = ((c.onward base).next file).1 := by rw [hnext]
      rw [List.map_cons, hfirst]
      refine .token (fun hend' => hend ((Cursor.atEnd_onward h).mp hend')) ?_
      rw [hnext]
      exact hrest

/-- The tokens in front of a cursor further on. -/
theorem TokenStream.ofCursor_onward {file : String} {base : Place} {c : Cursor}
    (h : c.place.Counted) :
    (ofCursor file (c.onward base)).toList =
      (ofCursor file c).toList.map (Token.onward base) := by
  obtain ⟨ts, d, hts, hend⟩ := exists_scans file c
  obtain ⟨piece, -, hplace⟩ := hts.within
  have hcounted : d.place.Counted := hplace ▸ h.past piece
  rw [ofCursor_of_scans hts hend,
    ofCursor_of_scans (hts.onward h) ((Cursor.atEnd_onward hcounted).mpr hend), toList, toList,
    Cursor.next_onward base hcounted, List.map_append, List.map_singleton]

end Clipper
