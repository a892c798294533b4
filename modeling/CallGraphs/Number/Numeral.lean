import CallGraphs.Number.Decimal

/-! Number literals of documents. How a number is written decides what it means: a literal of digits alone
    is exact if it fits 64 signed bits, and every other literal stands for the binary number nearest to it,
    also if it writes an integer. Integers of documents are those of 64 signed bits, so a literal just below
    the least of them still counts as the least. -/

namespace CallGraphs

/-- A number literal: digits alone, or with a fraction or an exponent. -/
inductive Numeral where
  | whole (n : Int)
  | scaled (d : Decimal)
  deriving DecidableEq

namespace Numeral

/-- The integer itself, if it fits 64 signed bits. -/
def fit64 (i : Int) : Option Int :=
  let bound : Int := Nat.pow 2 63
  if -bound ≤ i ∧ i < bound then some i else none

/-- The literal as an integer of the document format. -/
def integer? : Numeral → Option Int
  | .whole n => (fit64 n).or ((Decimal.nearestInteger? ⟨n, 0⟩).bind fit64)
  | .scaled d => d.nearestInteger?.bind fit64

/-- The literal with the other sign. -/
def neg : Numeral → Numeral
  | .whole n => .whole (-n)
  | .scaled d => .scaled d.neg

/-- The text of a literal. -/
def text : Numeral → String
  | .whole n => toString n
  | .scaled d => toString d.mantissa ++ "e" ++ toString d.exponent

/-! ### Reading a literal -/

/-- A whole part has at least one digit and no needless zero in front. -/
def wholeOk : List Char → Bool
  | [] => false
  | ['0'] => true
  | c :: cs => c != '0' && (c :: cs).all Char.isDigit

/-- The exponent part: nothing, or a mark, an optional sign and digits. -/
def exponentOf? : List Char → Option Int
  | [] => some 0
  | mark :: cs =>
    if mark != 'e' && mark != 'E' then none
    else
      let (sign, digits) : Int × List Char :=
        match cs with
        | '+' :: ds => (1, ds)
        | '-' :: ds => (-1, ds)
        | ds => (1, ds)
      if digits.isEmpty || !digits.all Char.isDigit then none
      else some (sign * Decimal.natOfDigits digits)

/-- The fraction digits and what follows them: nothing, or a point and at least one digit. -/
def fractionOf? : List Char → Option (List Char × List Char)
  | '.' :: cs =>
    let digits := cs.takeWhile Char.isDigit
    if digits.isEmpty then none else some (digits, cs.dropWhile Char.isDigit)
  | cs => some ([], cs)

/-- The decimal number of a whole part and what follows it. -/
def scaledOf? (whole rest : List Char) : Option Decimal := do
  let (fraction, rest) ← fractionOf? rest
  let e ← exponentOf? rest
  return ⟨Decimal.natOfDigits (whole ++ fraction), e - fraction.length⟩

/-- A literal without its sign. -/
def ofUnsigned? (cs : List Char) : Option Numeral :=
  let whole := cs.takeWhile Char.isDigit
  let rest := cs.dropWhile Char.isDigit
  if !wholeOk whole then none
  else if rest.isEmpty then some (.whole (Decimal.natOfDigits whole))
  else (scaledOf? whole rest).map .scaled

/-- A literal: an optional minus sign, a whole part, a fraction and an exponent. -/
def ofChars? : List Char → Option Numeral
  | '-' :: cs => (ofUnsigned? cs).map neg
  | cs => ofUnsigned? cs

end Numeral

end CallGraphs
