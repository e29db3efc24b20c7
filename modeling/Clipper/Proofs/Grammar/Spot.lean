import Clipper.Proofs.Grammar.Phrase
import Clipper.Proofs.Reading.Lawful

/-!
Where a reader stands, as a spot in the text: behind what it has taken, before its pending
tokens. What a reader asks about the token in front of it can be asked of the spot.
-/

namespace Clipper

namespace Reader

/-- Where the reader stands. -/
def spot (r : Reader) : Spot := ⟨r.line, r.pending ++ [r.last]⟩

variable {r r' : Reader} {c : Context}

theorem spot_eq (hr : r.Sound) (h : r.atEnd = false) :
    r.spot = ⟨r.line, r.current :: r.advanced.spot.rest⟩ := by
  rw [spot, pending_eq_cons hr h]
  rfl

theorem head?_spot (hr : r.Sound) : r.spot.rest.head? = some r.current := by
  cases h : r.atEnd with
  | true => simp [spot, pending_of_atEnd hr h, (hr.current_end h).1]
  | false => rw [spot_eq hr h, List.head?_cons]

theorem next_spot (hr : r.Sound) (p : Token → Bool) : r.spot.next p = p r.current := by
  simp [Spot.next, head?_spot hr]

theorem stops_spot (hr : r.Sound) : r.spot.stops c = r.stops c := by
  rw [Spot.stops, head?_spot hr]
  rfl

theorem blockEnds_spot (hr : r.Sound) : r.spot.blockEnds c = (r.atEnd || r.atAny c.closers) := by
  simp [Spot.blockEnds, head?_spot hr, atEnd, atAny, Token.isAny]

theorem moreMembers_spot (hr : r.Sound) : r.spot.moreMembers c = Grammar.moreMembers c r := by
  simp [Spot.moreMembers, next_spot hr, Grammar.moreMembers, atEnd, atAny, Token.isAny]

theorem link?_spot (hr : r.Sound) (p : Nat) : r.spot.link? c p = Grammar.link? c p r := by
  rw [Spot.link?, head?_spot hr, Option.bind_some, Grammar.link?]
  cases h : Grammar.Link.ofKind? r.current.kind with
  | none => rfl
  | some l => simp [Option.filter, sameLine, spot]

end Reader

end Clipper
