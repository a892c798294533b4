/-! Tables of entries that are found by a key. They stand beside lists, to find in one step what the list holds
    somewhere. A key gets its entry once; later it is changed in place or not at all. -/

namespace CallGraphs

/-- Entries with their keys. The first entry of a key is the one that counts. -/
structure Table (κ α : Type) where
  entries : List (κ × α) := []
  deriving DecidableEq

namespace Table

variable {κ α : Type} [DecidableEq κ]

/-- The entry of a key. -/
def find? (t : Table κ α) (k : κ) : Option α := t.entries.lookup k

/-- Whether a key has an entry. -/
def contains (t : Table κ α) (k : κ) : Bool := (t.find? k).isSome

/-- Give a key its entry, unless it has one; also says whether the table has changed. -/
def tryInsert (t : Table κ α) (k : κ) (a : α) : Bool × Table κ α :=
  if t.contains k then (false, t) else (true, ⟨(k, a) :: t.entries⟩)

/-- The entries with the one of a key changed; without one, `first` is changed and entered. -/
def updateIn (k : κ) (first : α) (f : α → α) : List (κ × α) → List (κ × α)
  | [] => [(k, f first)]
  | (k', a) :: rest => if k' = k then (k', f a) :: rest else (k', a) :: updateIn k first f rest

/-- Change the entry of a key, which is `first` as long as there is none. -/
def update (t : Table κ α) (k : κ) (first : α) (f : α → α) : Table κ α := ⟨updateIn k first f t.entries⟩

theorem tryInsert_of_contains {t : Table κ α} {k : κ} (h : t.contains k = true) (a : α) :
    t.tryInsert k a = (false, t) := if_pos h

theorem lookup_cons_ite (k k' : κ) (a : α) (l : List (κ × α)) :
    ((k, a) :: l).lookup k' = if k' = k then some a else l.lookup k' := by
  rw [List.lookup_cons]
  by_cases h : k' = k
  · simp [h]
  · rw [if_neg h, beq_eq_false_iff_ne.mpr h]

theorem find?_insert (t : Table κ α) (k k' : κ) (a : α) :
    find? ⟨(k, a) :: t.entries⟩ k' = if k' = k then some a else t.find? k' :=
  lookup_cons_ite k k' a t.entries

theorem lookup_updateIn (k k' : κ) (first : α) (f : α → α) : ∀ l : List (κ × α),
    (updateIn k first f l).lookup k' = if k' = k then some (f ((l.lookup k).getD first)) else l.lookup k'
  | [] => by
      rw [updateIn, lookup_cons_ite]
      rfl
  | (k₁, a) :: rest => by
      rw [updateIn, lookup_cons_ite, lookup_cons_ite]
      by_cases hk : k₁ = k
      · subst hk
        rw [if_pos rfl, if_pos rfl, lookup_cons_ite]
        split <;> rfl
      · rw [if_neg hk, if_neg (Ne.symm hk), lookup_cons_ite, lookup_updateIn k k' first f rest]
        by_cases h : k' = k₁
        · rw [if_pos h, if_pos h, if_neg (h ▸ hk)]
        · rw [if_neg h, if_neg h]

theorem find?_update (t : Table κ α) (k k' : κ) (first : α) (f : α → α) :
    (t.update k first f).find? k' = if k' = k then some (f ((t.find? k).getD first)) else t.find? k' :=
  lookup_updateIn k k' first f t.entries

end Table

end CallGraphs
