/-!
Sets of characters given as closed ranges of code points, ascending and apart.
-/

namespace Clipper.Text

/-- Looks a code point up in ascending ranges; the search stops at the first range beyond it. -/
def inRanges : List (Nat × Nat) → Nat → Bool
  | [], _ => false
  | (lo, hi) :: rest, n =>
      if n < lo then false
      else if n ≤ hi then true
      else inRanges rest n

theorem inRanges_mem {ranges : List (Nat × Nat)} {n : Nat} (h : inRanges ranges n = true) :
    ∃ r ∈ ranges, r.1 ≤ n ∧ n ≤ r.2 := by
  induction ranges with
  | nil => simp [inRanges] at h
  | cons r rest ih =>
      obtain ⟨lo, hi⟩ := r
      by_cases hlo : n < lo
      · simp [inRanges, hlo] at h
      by_cases hhi : n ≤ hi
      · exact ⟨(lo, hi), by simp, by omega, hhi⟩
      · obtain ⟨r, hr, hn⟩ := ih (by simpa [inRanges, hlo, hhi] using h)
        exact ⟨r, by simp [hr], hn⟩

end Clipper.Text
