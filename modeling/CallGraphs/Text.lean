/-! Text rules shared by every part of the library that reads or writes names. Letters change case in
    the ASCII range only, so a keyword is recognised in any case and every other character counts as
    itself. Cuts work on lists of characters: after the first separator, before the last one, or at
    every one. -/

namespace CallGraphs.Text

/-- The text with its ASCII letters in lower case. -/
def lower (s : String) : String := String.ofList (s.toList.map Char.toLower)

/-- The text with its ASCII letters in upper case. -/
def upper (s : String) : String := String.ofList (s.toList.map Char.toUpper)

/-- The texts one after the other, with `sep` between neighbours. -/
def join (sep : String) : List String → String
  | [] => ""
  | [s] => s
  | s :: t :: rest => s ++ sep ++ join sep (t :: rest)

/-- What follows the first `c`; the whole text if there is no `c`. -/
def afterFirst (c : Char) (cs : List Char) : List Char :=
  if c ∈ cs then (cs.dropWhile (· != c)).tail else cs

/-- What stands before the last `c`; the whole text if there is no `c`. -/
def beforeLast (c : Char) (cs : List Char) : List Char :=
  (afterFirst c cs.reverse).reverse

/-- The pieces between the separators `c`, empty ones included; there is always at least one. -/
def split (c : Char) : List Char → List (List Char)
  | [] => [[]]
  | x :: xs =>
    if x = c then [] :: split c xs
    else
      match split c xs with
      | [] => [[x]]
      | piece :: rest => (x :: piece) :: rest

end CallGraphs.Text
