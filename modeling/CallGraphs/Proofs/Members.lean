import CallGraphs.Json.Value

/-! Objects with some members changed or left out, seen through the functions that look members up. Of the members with
    one key the first counts, so a change is made to all of them. -/

namespace CallGraphs.Json

/-- A value with its items changed, if it is an array. -/
def overItems (f : List Json → List Json) : Json → Json
  | .arr items => .arr (f items)
  | v => v

/-- A value with its members changed, if it is an object. -/
def overMembers (f : Object → Object) : Json → Json
  | .obj o => .obj (f o)
  | v => v

namespace Object

/-- The object with the value under a key changed. -/
def change (o : Object) (key : String) (f : Json → Json) : Object :=
  o.map fun m => if m.1 = key then (m.1, f m.2) else m

/-- The object with the members of some keys. -/
def only (o : Object) (keep : String → Bool) : Object := o.filter fun m => keep m.1

variable {o o' : Object} {key k : String}

theorem get?_cons (k : String) (v : Json) (o : Object) (key : String) :
    get? ((k, v) :: o) key = if key = k then some v else get? o key := by
  by_cases h : key = k
  · simp [get?, h]
  · simp [get?, List.lookup_cons, h, beq_false_of_ne h]

theorem get?_change_of_ne (h : k ≠ key) (f : Json → Json) : ∀ o : Object, get? (change o key f) k = get? o k
  | [] => rfl
  | (k', v) :: o => by
      have ih := get?_change_of_ne h f o
      rw [change, List.map_cons, ← change]
      by_cases hk : k' = key
      · rw [if_pos hk, hk, get?_cons, get?_cons, if_neg h, if_neg h, ih]
      · rw [if_neg hk, get?_cons, get?_cons, ih]

theorem get?_change (key : String) (f : Json → Json) : ∀ o : Object, get? (change o key f) key = (get? o key).map f
  | [] => rfl
  | (k, v) :: o => by
      have ih := get?_change key f o
      rw [change, List.map_cons, ← change]
      by_cases hk : k = key
      · rw [if_pos hk, hk, get?_cons, get?_cons, if_pos rfl, if_pos rfl]
        rfl
      · rw [if_neg hk, get?_cons, get?_cons, if_neg (Ne.symm hk), if_neg (Ne.symm hk), ih]

theorem get?_only (keep : String → Bool) (key : String) : ∀ o : Object,
    get? (only o keep) key = if keep key then get? o key else none
  | [] => by simp [only, get?]
  | (k, v) :: o => by
      have ih := get?_only keep key o
      rw [only, List.filter_cons, ← only, get?_cons]
      by_cases hkey : key = k
      · subst hkey
        by_cases hkeep : keep key
        · rw [if_pos hkeep, get?_cons, if_pos rfl, if_pos rfl, if_pos hkeep]
        · rw [if_neg hkeep, ih, if_neg hkeep, if_neg hkeep]
      · rw [if_neg hkey, ← ih]
        split
        · rw [get?_cons, if_neg hkey]
        · rfl

theorem text?_congr (h : get? o' key = get? o key) : text? o' key = text? o key := by
  rw [text?, h, text?]

theorem object?_congr (h : get? o' key = get? o key) : object? o' key = object? o key := by
  rw [object?, h, object?]

theorem array?_congr (h : get? o' key = get? o key) : array? o' key = array? o key := by
  rw [array?, h, array?]

theorem array?_change (key : String) (f : List Json → List Json) (o : Object) :
    array? (change o key (overItems f)) key = (array? o key).map f := by
  unfold array?
  rw [get?_change]
  cases get? o key with
  | none => rfl
  | some v => cases v <;> rfl

theorem object?_change (key : String) (f : Object → Object) (o : Object) :
    object? (change o key (overMembers f)) key = (object? o key).map f := by
  unfold object?
  rw [get?_change]
  cases get? o key with
  | none => rfl
  | some v => cases v <;> rfl

/-- The items of a list that is changed; nothing comes of nothing. -/
theorem items_change (key : String) {f : List Json → List Json} (hf : f [] = []) (o : Object) :
    items (change o key (overItems f)) key = f (items o key) := by
  unfold items
  rw [array?_change]
  cases array? o key with
  | none => exact hf.symm
  | some vs => rfl

end Object

end CallGraphs.Json
