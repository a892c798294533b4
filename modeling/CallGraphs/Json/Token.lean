import CallGraphs.Number.Numeral

/-! The tokens of a JSON text, found by one left fold over its characters. The fold carries the tokens met
    so far and a mode: between tokens, inside a string literal (plain, after a backslash, or inside a
    `\u` escape), inside a number or inside a word. Any character that the mode has no use for ends the
    fold without a result.

        ground ──"──▶ literal ──\──▶ escape ──u──▶ unit (four digits) ──▶ literal
           │ digit, -          │ "
           ▼                   ▼
        number, word ──▶ ground -/

namespace CallGraphs.Json

/-- The tokens of a JSON text. -/
inductive Token where
  | objectOpen | objectClose | arrayOpen | arrayClose | comma | colon
  | null
  | bool (b : Bool)
  | num (n : Numeral)
  | str (s : String)
  deriving DecidableEq

/-! ### String literals -/

/-- The characters of a string literal read so far, last one first, and the first half of a surrogate
    pair that still waits for the second. -/
structure Literal where
  chars : List Char := []
  high : Option Nat := none

/-- The character that stands for a half of a surrogate pair without the other half. -/
def replacement : Char := Char.ofNat 0xFFFD

namespace Literal

/-- A first half that waits in vain becomes the replacement character. -/
def settle (l : Literal) : Literal :=
  match l.high with
  | none => l
  | some _ => ⟨replacement :: l.chars, none⟩

/-- Append one character. -/
def push (l : Literal) (c : Char) : Literal := ⟨c :: l.settle.chars, none⟩

/-- Append one 16-bit unit of an escape: a character of its own, or half of a pair. -/
def pushUnit (l : Literal) (u : Nat) : Literal :=
  if 0xD800 ≤ u ∧ u < 0xDC00 then ⟨l.settle.chars, some u⟩
  else if 0xDC00 ≤ u ∧ u < 0xE000 then
    match l.high with
    | some h => ⟨Char.ofNat (0x10000 + (h - 0xD800) * 0x400 + (u - 0xDC00)) :: l.chars, none⟩
    | none => l.push replacement
  else l.push (Char.ofNat u)

/-- The text of the finished literal. -/
def text (l : Literal) : String := String.ofList l.settle.chars.reverse

end Literal

/-! ### The fold -/

/-- Where the fold stands: between tokens or inside one. -/
inductive Mode where
  | ground
  | literal (l : Literal)
  | escape (l : Literal)
  | unit (l : Literal) (left value : Nat)
  | number (chars : List Char)
  | word (chars : List Char)

/-- The state of the fold: the tokens met so far, last one first, and the mode. -/
structure Lexer where
  tokens : List Token := []
  mode : Mode := .ground

/-- The four blank characters. -/
def isBlank (c : Char) : Bool := c == ' ' || c == '\t' || c == '\n' || c == '\r'

/-- The characters that a number literal is made of. -/
def isNumeral (c : Char) : Bool :=
  c.isDigit || c == '+' || c == '-' || c == '.' || c == 'e' || c == 'E'

/-- The value of a hexadecimal digit. -/
def hexValue? (c : Char) : Option Nat :=
  if c.isDigit then some (c.toNat - '0'.toNat)
  else if 'a' ≤ c ∧ c ≤ 'f' then some (c.toNat - 'a'.toNat + 10)
  else if 'A' ≤ c ∧ c ≤ 'F' then some (c.toNat - 'A'.toNat + 10)
  else none

/-- What a character after a backslash stands for, the unit escape apart. -/
def escaped? : Char → Option Char
  | '"' => some '"'
  | '\\' => some '\\'
  | '/' => some '/'
  | 'b' => some (Char.ofNat 8)
  | 'f' => some (Char.ofNat 12)
  | 'n' => some '\n'
  | 'r' => some '\r'
  | 't' => some '\t'
  | _ => none

/-- The three words of the format. -/
def word? : String → Option Token
  | "null" => some .null
  | "true" => some (.bool true)
  | "false" => some (.bool false)
  | _ => none

namespace Lexer

/-- The tokens once a number or a word in progress is complete; none inside a string literal. -/
def close (l : Lexer) : Option (List Token) :=
  match l.mode with
  | .ground => some l.tokens
  | .number cs => (Numeral.ofChars? cs.reverse).map fun n => .num n :: l.tokens
  | .word cs => (word? (String.ofList cs.reverse)).map (· :: l.tokens)
  | _ => none

/-- One character between tokens. -/
def ground (tokens : List Token) (c : Char) : Option Lexer :=
  if isBlank c then some ⟨tokens, .ground⟩
  else if c.isDigit || c == '-' then some ⟨tokens, .number [c]⟩
  else if c.isAlpha then some ⟨tokens, .word [c]⟩
  else
    match c with
    | '"' => some ⟨tokens, .literal {}⟩
    | '\x7b' => some ⟨.objectOpen :: tokens, .ground⟩
    | '\x7d' => some ⟨.objectClose :: tokens, .ground⟩
    | '[' => some ⟨.arrayOpen :: tokens, .ground⟩
    | ']' => some ⟨.arrayClose :: tokens, .ground⟩
    | ',' => some ⟨.comma :: tokens, .ground⟩
    | ':' => some ⟨.colon :: tokens, .ground⟩
    | _ => none

/-- One step of the fold. -/
def step (l : Lexer) (c : Char) : Option Lexer :=
  match l.mode with
  | .ground => ground l.tokens c
  | .number cs =>
    if isNumeral c then some ⟨l.tokens, .number (c :: cs)⟩ else l.close.bind (ground · c)
  | .word cs =>
    if c.isAlpha then some ⟨l.tokens, .word (c :: cs)⟩ else l.close.bind (ground · c)
  | .literal s =>
    if c == '"' then some ⟨.str s.text :: l.tokens, .ground⟩
    else if c == '\\' then some ⟨l.tokens, .escape s⟩
    else if c.toNat < 32 then none
    else some ⟨l.tokens, .literal (s.push c)⟩
  | .escape s =>
    if c == 'u' then some ⟨l.tokens, .unit s 4 0⟩
    else (escaped? c).map fun e => ⟨l.tokens, .literal (s.push e)⟩
  | .unit s left value =>
    (hexValue? c).map fun d =>
      if left ≤ 1 then ⟨l.tokens, .literal (s.pushUnit (16 * value + d))⟩
      else ⟨l.tokens, .unit s (left - 1) (16 * value + d)⟩

end Lexer

/-- The tokens of a text, in order. -/
def tokens? (text : String) : Option (List Token) :=
  ((text.toList.foldlM Lexer.step {}).bind Lexer.close).map List.reverse

end CallGraphs.Json
