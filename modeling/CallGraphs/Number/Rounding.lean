/-! Quotients of natural numbers rounded to the nearest integer, and fixed-point text made from them.
    A half goes to the even neighbour. -/

namespace CallGraphs

/-- The integer nearest to `num / den`; a half goes to the even neighbour. -/
def roundDiv (num den : Nat) : Nat :=
  let q := num / den
  let r := num % den
  if 2 * r < den then q
  else if den < 2 * r then q + 1
  else q + q % 2

/-- A number below one hundred with two digits. -/
def twoDigits (n : Nat) : String :=
  if n < 10 then "0" ++ toString n else toString n

/-- The quotient with two decimal places. -/
def fixedTwo (num den : Nat) : String :=
  let hundredths := roundDiv (100 * num) den
  toString (hundredths / 100) ++ "." ++ twoDigits (hundredths % 100)

end CallGraphs
