import CallGraphs.Number.Rounding

/-! Binary floating-point numbers with a significand of 53 bits, as exact pairs `significand * 2 ^ exponent`.
    `Binary64.nearest` rounds a quotient to such a number; everything after that is exact. -/

namespace CallGraphs

/-- The number `significand * 2 ^ exponent`. -/
structure Binary64 where
  significand : Nat
  exponent : Int
  deriving DecidableEq

namespace Binary64

/-- Numerator and denominator of the value. -/
def ratio (b : Binary64) : Nat × Nat :=
  if 0 ≤ b.exponent then (b.significand * Nat.pow 2 b.exponent.toNat, 1)
  else (b.significand, Nat.pow 2 (-b.exponent).toNat)

/-- The integer that the value is, if it is one. -/
def toNat? (b : Binary64) : Option Nat :=
  if b.ratio.1 % b.ratio.2 = 0 then some (b.ratio.1 / b.ratio.2) else none

/-- The greatest `k` with `2 ^ k ≤ num / den`, for positive `num` and `den`. -/
def scale (num den : Nat) : Int :=
  let k : Int := (num.log2 : Int) - (den.log2 : Int)
  let reached := if 0 ≤ k then den * Nat.pow 2 k.toNat ≤ num else den ≤ num * Nat.pow 2 (-k).toNat
  if reached then k else k - 1

/-- The number nearest to `num / den`, a half going to the even significand. Exponents stop at the
    least one of the format, so that small quotients lose bits and the smallest become zero. -/
def nearest (num den : Nat) : Binary64 :=
  if num = 0 then ⟨0, 0⟩
  else
    let e := max (scale num den - 52) (-1074)
    let s := if 0 ≤ e then roundDiv num (den * Nat.pow 2 e.toNat) else roundDiv (num * Nat.pow 2 (-e).toNat) den
    ⟨s, e⟩

end Binary64

end CallGraphs
