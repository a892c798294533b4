/-! What is kept about things that have numbers: rows of numbers, one row for each number, marks, one for each
    number, and lists of numbers in increasing order. -/

namespace CallGraphs

/-! ### Rows -/

/-- The row of a number; empty beyond the end. -/
def row (table : Array (List Nat)) (i : Nat) : List Nat := (table[i]?).getD []

/-- Put a number at the end of a row. -/
def pushRow (table : Array (List Nat)) (i x : Nat) : Array (List Nat) := table.modify i (· ++ [x])

theorem size_pushRow (table : Array (List Nat)) (i x : Nat) : (pushRow table i x).size = table.size :=
  Array.size_modify

theorem row_pushRow (table : Array (List Nat)) (i x j : Nat) :
    row (pushRow table i x) j = if i = j ∧ j < table.size then row table j ++ [x] else row table j := by
  rw [row, pushRow, Array.getElem?_modify, row]
  by_cases hj : j < table.size
  · by_cases hi : i = j <;> simp [hi, hj]
  · simp [hj]

theorem row_replicate (n i : Nat) : row (Array.replicate n []) i = [] := by
  rw [row, Array.getElem?_replicate]
  split <;> rfl

/-- The length of the longest row. -/
def longestRow (table : Array (List Nat)) : Nat := table.toList.foldr (fun r k => max r.length k) 0

theorem length_row_le (table : Array (List Nat)) (i : Nat) : (row table i).length ≤ longestRow table := by
  have hmem : ∀ (l : List (List Nat)) (r : List Nat), r ∈ l → r.length ≤ l.foldr (fun r k => max r.length k) 0 := by
    intro l
    induction l with
    | nil => simp
    | cons r' l ih =>
      intro r hr
      rw [List.foldr_cons]
      rcases List.mem_cons.mp hr with rfl | hr
      · exact Nat.le_max_left _ _
      · exact Nat.le_trans (ih r hr) (Nat.le_max_right _ _)
  rw [row]
  cases h : table[i]? with
  | none => exact Nat.zero_le _
  | some r => exact hmem table.toList r (Array.mem_toList_iff.mpr (Array.mem_of_getElem? h))

/-! ### Marks -/

theorem mark_iff {marks : Array Bool} {i j : Nat} (hi : i < marks.size) :
    (marks.setIfInBounds i true)[j]? = some true ↔ marks[j]? = some true ∨ j = i := by
  rw [Array.getElem?_setIfInBounds]
  by_cases hj : i = j
  · subst hj
    simp [hi]
  · simp [hj, Ne.symm hj]

theorem unmarked_iff {marks : Array Bool} {i : Nat} (hi : i < marks.size) :
    marks[i]? = some false ↔ marks[i]? ≠ some true := by
  rw [Array.getElem?_eq_getElem hi]
  simp

/-- A mark that is set is one that was not set before. -/
theorem count_false_mark {marks : Array Bool} {i : Nat} (h : marks[i]? = some false) :
    (marks.setIfInBounds i true).count false + 1 = marks.count false := by
  obtain ⟨hlt, hv⟩ := Array.getElem?_eq_some_iff.mp h
  have hpos : 0 < marks.count false := Array.count_pos_iff.mpr (hv ▸ Array.getElem_mem hlt)
  rw [Array.setIfInBounds, dif_pos hlt, Array.count_set hlt, hv, if_pos (by decide), if_neg (by decide)]
  omega

/-! ### Order -/

/-- Put a number in front of the first one that is not smaller. -/
def insertInOrder (x : Nat) : List Nat → List Nat
  | [] => [x]
  | y :: l => if x ≤ y then x :: y :: l else y :: insertInOrder x l

/-- The numbers of a list from the smallest to the largest. -/
def inOrder (l : List Nat) : List Nat := l.foldr insertInOrder []

end CallGraphs
