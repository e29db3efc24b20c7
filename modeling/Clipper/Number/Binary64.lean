/-!
Binary floating point numbers of 64 bits, given by their bit patterns. A decimal
fraction is rounded once, from its exact value, to the nearest pattern.
-/

namespace Clipper.Binary64

/-- The quotient rounded to the nearest number; a tie goes to the even neighbour. -/
def roundQuotient (num den : Nat) : Nat :=
  let q := num / den
  let r := num % den
  if 2 * r < den || (2 * r == den && q % 2 == 0) then q else q + 1

def twoTo (n : Nat) : Nat := Nat.pow 2 n

/-- The pattern of positive infinity. -/
def infinity : Nat := 0x7ff * twoTo 52

/-- The pattern nearest to a quotient. The value is counted in units of the
smallest positive number, 2 to the power -1074; with 53 bits or less the count is
the pattern itself, and every further bit moves the exponent field up by one.
A significand that rounds up to 54 bits carries into the exponent field. -/
def ofQuotient (num den : Nat) : Nat :=
  let units := num * twoTo 1074
  let shift := (units / den).log2 - 52
  min (shift * twoTo 52 + roundQuotient units (den * twoTo shift)) infinity

def digitValue (c : Char) : Nat := c.toNat - '0'.toNat

/-- The number a run of decimal digits stands for. -/
def ofDigits (ds : List Char) : Nat := ds.foldl (fun n d => 10 * n + digitValue d) 0

/-- Reads digits, a point and digits. Either run may be empty, but not both. -/
def ofDecimal? (text : List Char) : Option UInt64 :=
  let whole := text.takeWhile Char.isDigit
  match text.dropWhile Char.isDigit with
  | '.' :: places =>
      if places.all Char.isDigit && !(whole.isEmpty && places.isEmpty) then
        some (.ofNat (ofQuotient (ofDigits (whole ++ places)) (Nat.pow 10 places.length)))
      else none
  | _ => none

end Clipper.Binary64
