import CallGraphs.Json.Value

/-! The text of a JSON value, one item or member a line, indented by two blanks a level. -/

namespace CallGraphs.Json

/-- A hexadecimal digit in lower case. -/
def hexDigit (n : Nat) : Char :=
  if n < 10 then Char.ofNat ('0'.toNat + n) else Char.ofNat ('a'.toNat + (n - 10))

/-- A character inside a quoted string: quotes, backslashes and control characters are escaped. -/
def quoteChar (c : Char) : List Char :=
  if c == '"' then ['\\', '"']
  else if c == '\\' then ['\\', '\\']
  else if c == '\t' then ['\\', 't']
  else if c == '\n' then ['\\', 'n']
  else if c == '\r' then ['\\', 'r']
  else if c.toNat < 32 then ['\\', 'u', '0', '0', hexDigit (c.toNat / 16), hexDigit (c.toNat % 16)]
  else [c]

/-- A string in quotes. -/
def quote (s : String) : String :=
  String.ofList ('"' :: s.toList.flatMap quoteChar ++ ['"'])

/-- A new line at a depth of nesting. -/
def newline (depth : Nat) : String := String.ofList ('\n' :: List.replicate (2 * depth) ' ')

mutual

/-- The text of a value whose first line stands at `depth`. -/
def render (depth : Nat) : Json → String
  | .null => "null"
  | .bool true => "true"
  | .bool false => "false"
  | .num n => n.text
  | .str s => quote s
  | .arr [] => "[]"
  | .arr (v :: vs) => "[" ++ newline (depth + 1) ++ render (depth + 1) v ++ renderItems depth vs
  | .obj [] => "\x7b\x7d"
  | .obj ((k, v) :: ms) =>
    "\x7b" ++ newline (depth + 1) ++ quote k ++ ": " ++ render (depth + 1) v ++ renderMembers depth ms

/-- The further items of an array and its end. -/
def renderItems (depth : Nat) : List Json → String
  | [] => newline depth ++ "]"
  | v :: vs => "," ++ newline (depth + 1) ++ render (depth + 1) v ++ renderItems depth vs

/-- The further members of an object and its end. -/
def renderMembers (depth : Nat) : List (String × Json) → String
  | [] => newline depth ++ "\x7d"
  | (k, v) :: ms =>
    "," ++ newline (depth + 1) ++ quote k ++ ": " ++ render (depth + 1) v ++ renderMembers depth ms

end

/-- The text of a value. -/
def pretty (v : Json) : String := render 0 v

end CallGraphs.Json
