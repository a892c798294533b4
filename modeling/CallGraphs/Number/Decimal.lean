import CallGraphs.Number.Binary64

/-! Decimal numbers: a signed integer times a power of ten. A decimal number stands for the binary number
    nearest to it, and counts as an integer when that binary number is one. -/

namespace CallGraphs

/-- The number `mantissa * 10 ^ exponent`. -/
structure Decimal where
  mantissa : Int
  exponent : Int := 0
  deriving DecidableEq

namespace Decimal

/-- The number that a row of decimal digits writes. -/
def natOfDigits (cs : List Char) : Nat :=
  cs.foldl (fun n c => 10 * n + (c.toNat - '0'.toNat)) 0

/-- The number with the other sign. -/
def neg (d : Decimal) : Decimal := { d with mantissa := -d.mantissa }

/-- The binary number nearest to the absolute value. -/
def magnitude (d : Decimal) : Binary64 :=
  if 0 ≤ d.exponent then .nearest (d.mantissa.natAbs * Nat.pow 10 d.exponent.toNat) 1
  else .nearest d.mantissa.natAbs (Nat.pow 10 (-d.exponent).toNat)

/-- The integer that the nearest binary number is, if it is one. Numbers far outside the range of binary
    numbers are decided by their exponent alone: the large ones are none, the small ones are zero. -/
def nearestInteger? (d : Decimal) : Option Int :=
  if d.mantissa = 0 then some 0
  else if 400 < d.exponent then none
  else if d.exponent + 1100 + d.mantissa.natAbs.log2 < 0 then some 0
  else d.magnitude.toNat?.map fun n => if d.mantissa < 0 then -n else n

end Decimal

end CallGraphs
