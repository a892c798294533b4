/-! Quoted labels of the DOT language. Backslash, tab, line end and quote are written with a backslash, other
    printable ASCII characters stand for themselves, and everything else is written byte by byte in octal. -/

namespace CallGraphs.Dot

/-- An octal escape of one byte. -/
def octal (b : Nat) : List Char :=
  ['\\', Nat.digitChar (b / 64 % 8), Nat.digitChar (b / 8 % 8), Nat.digitChar (b % 8)]

/-- One character of a label. -/
def escapeChar (c : Char) : List Char :=
  if c = '\\' then ['\\', '\\']
  else if c = '\t' then ['\\', 't']
  else if c = '\n' then ['\\', 'n']
  else if c = '"' then ['\\', '"']
  else if 32 ≤ c.toNat ∧ c.toNat < 127 then [c]
  else (String.singleton c).toUTF8.toList.flatMap fun b => octal b.toNat

/-- The characters of a label. -/
def escapeChars (cs : List Char) : List Char := cs.flatMap escapeChar

/-- A label in its written form, without the quotes. -/
def escape (s : String) : String := String.ofList (escapeChars s.toList)

end CallGraphs.Dot
