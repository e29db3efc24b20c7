/-!
Stretches of a source text, counted in bytes of its UTF-8 form.
-/

namespace Clipper

/-- From `start` up to, and without, `stop`. A span whose end lies before its start is empty. -/
structure Span where
  start : Nat
  stop : Nat
  deriving DecidableEq, Repr

namespace Span

def size (s : Span) : Nat := s.stop - s.start

def isEmpty (s : Span) : Bool := s.size == 0

/-- The least span around both. -/
def merge (s t : Span) : Span := ⟨min s.start t.start, max s.stop t.stop⟩

theorem merge_comm (s t : Span) : s.merge t = t.merge s := by
  simp [merge, Nat.min_comm, Nat.max_comm]

theorem merge_assoc (s t u : Span) : (s.merge t).merge u = s.merge (t.merge u) := by
  simp [merge, Nat.min_assoc, Nat.max_assoc]

@[simp] theorem merge_self (s : Span) : s.merge s = s := by
  simp [merge]

end Span

end Clipper
