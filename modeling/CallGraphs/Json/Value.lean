import CallGraphs.Json.Token

/-! JSON values, and the value that a text writes. Tokens become a value by a second left fold, over a
    stack of the arrays and objects that are still open; the state says what may come next. Of two
    members with one key the later counts. -/

namespace CallGraphs

/-- A JSON value. Objects keep their members in order. -/
inductive Json where
  | null
  | bool (b : Bool)
  | num (n : Numeral)
  | str (s : String)
  | arr (items : List Json)
  | obj (members : List (String × Json))
  deriving Inhabited

namespace Json

/-- The members of an object. -/
abbrev Object := List (String × Json)

/-! ### Members by key and kind -/

namespace Object

/-- The value under a key. -/
def get? (o : Object) (key : String) : Option Json := o.lookup key

/-- The string under a key; nothing if the value is of another kind. -/
def text? (o : Object) (key : String) : Option String :=
  match get? o key with
  | some (.str s) => some s
  | _ => none

/-- The object under a key; nothing if the value is of another kind. -/
def object? (o : Object) (key : String) : Option Object :=
  match get? o key with
  | some (.obj ms) => some ms
  | _ => none

/-- The items of the array under a key; nothing if the value is of another kind. -/
def array? (o : Object) (key : String) : Option (List Json) :=
  match get? o key with
  | some (.arr items) => some items
  | _ => none

/-- The items of the array under a key; no items if there is no array. -/
def items (o : Object) (key : String) : List Json := (array? o key).getD []

/-- The string under a key if it is not empty. -/
def name? (o : Object) (key : String) : Option String :=
  (text? o key).filter (· != "")

/-- The object with one member set; a member of that key before it is dropped. -/
def set (o : Object) (key : String) (v : Json) : Object :=
  o.filter (fun m => m.1 != key) ++ [(key, v)]

/-- A value that stands in an object is smaller than the object. -/
theorem sizeOf_get? {key : String} {v : Json} : ∀ {o : Object}, get? o key = some v → sizeOf v < sizeOf o
  | [], h => by simp [get?] at h
  | (k, w) :: rest, h => by
      simp only [get?, List.lookup_cons] at h
      split at h
      · cases h; simp; omega
      · have := sizeOf_get? (o := rest) h
        simp; omega

/-- The items of a member are smaller than the object. -/
theorem sizeOf_items (o : Object) (key : String) : sizeOf (items o key) ≤ sizeOf o := by
  unfold items array?
  split
  · rename_i vs h
    have := sizeOf_get? h
    simp at this ⊢; omega
  · cases o <;> simp; omega

end Object

/-! ### From tokens to a value -/

/-- An array or object that is still open, its items or members last one first. A member whose value is
    yet to come has its key ready. -/
inductive Frame where
  | array (items : List Json)
  | object (members : Object)
  | member (members : Object) (key : String)

/-- What may come next. -/
inductive Want where
  | value | itemOrClose | keyOrClose | key
  | colon (name : String)
  | next
  | nothing (result : Json)

/-- The state of the fold: the open frames, innermost first, and what may come next. -/
structure Parse where
  frames : List Frame := []
  want : Want := .value

namespace Parse

/-- A finished value goes into the innermost frame, or is the result. -/
def deliver (v : Json) : List Frame → Option Parse
  | [] => some ⟨[], .nothing v⟩
  | .array items :: fs => some ⟨.array (v :: items) :: fs, .next⟩
  | .member ms key :: fs => some ⟨.object ((key, v) :: ms.filter (fun m => m.1 != key)) :: fs, .next⟩
  | .object _ :: _ => none

/-- A token where a value may begin. -/
def begin (fs : List Frame) : Token → Option Parse
  | .null => deliver .null fs
  | .bool b => deliver (.bool b) fs
  | .num n => deliver (.num n) fs
  | .str s => deliver (.str s) fs
  | .arrayOpen => some ⟨.array [] :: fs, .itemOrClose⟩
  | .objectOpen => some ⟨.object [] :: fs, .keyOrClose⟩
  | _ => none

/-- A closing token ends the innermost frame of its kind. -/
def close : List Frame → Token → Option Parse
  | .array items :: fs, .arrayClose => deliver (.arr items.reverse) fs
  | .object ms :: fs, .objectClose => deliver (.obj ms.reverse) fs
  | _, _ => none

/-- One step of the fold. -/
def step (p : Parse) (t : Token) : Option Parse :=
  match p.want, t with
  | .value, t => begin p.frames t
  | .itemOrClose, .arrayClose => close p.frames t
  | .itemOrClose, t => begin p.frames t
  | .keyOrClose, .objectClose => close p.frames t
  | .keyOrClose, .str s => some ⟨p.frames, .colon s⟩
  | .key, .str s => some ⟨p.frames, .colon s⟩
  | .colon name, .colon =>
    match p.frames with
    | .object ms :: fs => some ⟨.member ms name :: fs, .value⟩
    | _ => none
  | .next, .comma =>
    match p.frames with
    | .array _ :: _ => some ⟨p.frames, .value⟩
    | .object _ :: _ => some ⟨p.frames, .key⟩
    | _ => none
  | .next, t => close p.frames t
  | _, _ => none

/-- The value, once the tokens are used up. -/
def result? (p : Parse) : Option Json :=
  match p.want with
  | .nothing v => some v
  | _ => none

end Parse

/-- The value that a row of tokens writes. -/
def ofTokens? (ts : List Token) : Option Json := (ts.foldlM Parse.step {}).bind Parse.result?

/-- What tells the value that a text writes; nothing for a text that writes none. Parsers differ in what they accept
    beyond the grammar of the format, so what is said of descriptions is said for every parser. -/
abbrev Parser := String → Option Json

/-- The value that a text writes by the grammar of the format, with nothing beyond it. -/
def ofText? (text : String) : Option Json := (tokens? text).bind ofTokens?

/-- The number as an integer; nothing if the value is of another kind or not an integer. -/
def integer? : Json → Option Int
  | .num n => n.integer?
  | _ => none

end Json

end CallGraphs
