/-!
The dialect families that the words of the language come from.
-/

namespace Clipper

/-- The front end accepts the union of the families. -/
inductive Dialect
  | clipper | harbour | advpl
  deriving DecidableEq, Repr

end Clipper
