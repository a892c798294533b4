import Mathlib.Data.List.Forall2
import Mathlib.Data.List.Sort
import CallGraphs.Proofs.BaseChains

/-! The implementers of an interface. A type implements an interface if it lists it, if it lists a type that implements
    it, or if it is a subtype of one (`Implements`). The search for implementers goes from a type to those that list it
    and to their subtypes at once, and never back to a type that it has seen, so interfaces may extend each other in a
    cycle. What it finds is closed under these steps (`found_closed`), which makes the answer exact. Answers that were
    kept are the answers that a search would give (`ask_spec`), so it does not matter what was asked before
    (`askAll_spec`). -/

namespace CallGraphs

/-! ### Numbers in order -/

theorem insertInOrder_eq (x : Nat) : ∀ l : List Nat, insertInOrder x l = l.orderedInsert (· ≤ ·) x
  | [] => rfl
  | y :: l => by rw [insertInOrder, List.orderedInsert, insertInOrder_eq x l]

theorem inOrder_eq (l : List Nat) : inOrder l = l.insertionSort (· ≤ ·) := by
  induction l with
  | nil => rfl
  | cons x l ih =>
    rw [List.insertionSort_cons, ← ih, ← insertInOrder_eq]
    rfl

theorem mem_inOrder {l : List Nat} {x : Nat} : x ∈ inOrder l ↔ x ∈ l := by
  rw [inOrder_eq, List.mem_insertionSort]

namespace Hierarchy

/-! ### A search -/

/-- Where a search goes from a type: to the types that list it, and to their subtypes. -/
def steps (h : Hierarchy) (t : TypeId) : List TypeId := (row h.listers t).flatMap fun s => s :: h.subtypesOf s

namespace Search

variable {h : Hierarchy} {n : Nat} {t x : TypeId} {s : Search}

theorem expand_eq (h : Hierarchy) (s : Search) (t : TypeId) : s.expand h t = (h.steps t).foldl visit s := by
  rw [steps, List.foldl_flatMap]
  rfl

/-- The marks say what has been found, with the type `t` where the search began. -/
structure Marked (n : Nat) (t : TypeId) (s : Search) : Prop where
  size : s.seen.size = n
  seen : ∀ y : TypeId, s.seen[y]? = some true ↔ y ∈ t :: s.found
  once : (t :: s.found).Nodup

theorem Marked.visit {y : TypeId} (hs : Marked n t s) (hy : y < n) :
    Marked n t (s.visit y) ∧ y ∈ t :: (s.visit y).found ∧
    ∃ new, (s.visit y).found = s.found ++ new ∧ (s.visit y).queue = s.queue ++ new ∧ ∀ z ∈ new, z = y := by
  have hlt : y < s.seen.size := hs.size ▸ hy
  rw [Search.visit]
  split
  · rename_i hnew
    rw [beq_iff_eq] at hnew
    have hnot : y ∉ t :: s.found := by
      rw [← hs.seen, hnew]
      decide
    refine ⟨⟨by rw [Array.size_setIfInBounds, hs.size], fun z => ?_, ?_⟩, by simp, [y], rfl, rfl, by simp⟩
    · show (s.seen.setIfInBounds y true)[z]? = some true ↔ z ∈ t :: s.found ++ [y]
      rw [mark_iff hlt, List.mem_append, List.mem_singleton, hs.seen]
    · show (t :: s.found ++ [y]).Nodup
      exact List.nodup_append.mpr ⟨hs.once, List.nodup_singleton y, fun a ha b hb heq =>
        hnot (List.mem_singleton.mp hb ▸ heq ▸ ha)⟩
  · rename_i hold
    rw [beq_iff_eq, unmarked_iff hlt, not_not] at hold
    exact ⟨hs, (hs.seen y).mp hold, [], by simp⟩

/-- What is visited is found, and what is found anew waits in the queue. -/
theorem Marked.foldl_visit : ∀ {l : List TypeId} {s : Search}, Marked n t s → (∀ y ∈ l, y < n) →
    Marked n t (l.foldl Search.visit s) ∧ (∀ y ∈ l, y ∈ t :: (l.foldl Search.visit s).found) ∧
    ∃ new, (l.foldl Search.visit s).found = s.found ++ new ∧ (l.foldl Search.visit s).queue = s.queue ++ new ∧
      ∀ z ∈ new, z ∈ l
  | [], s, hs, _ => ⟨hs, by simp, [], by simp⟩
  | y :: l, s, hs, hl => by
      obtain ⟨hs', hy, new, hfound, hqueue, hnew⟩ := hs.visit (hl y List.mem_cons_self)
      obtain ⟨hs'', hall, more, hfound', hqueue', hmore⟩ :=
        hs'.foldl_visit (l := l) fun z hz => hl z (List.mem_cons_of_mem y hz)
      refine ⟨hs'', fun z hz => ?_, new ++ more, ?_, ?_, fun z hz => ?_⟩
      · rcases List.mem_cons.mp hz with rfl | hz
        · rw [List.foldl_cons, hfound', ← List.cons_append]
          exact List.mem_append_left _ hy
        · exact hall z hz
      · rw [List.foldl_cons, hfound', hfound, List.append_assoc]
      · rw [List.foldl_cons, hqueue', hqueue, List.append_assoc]
      · rcases List.mem_append.mp hz with hz | hz
        · exact List.mem_cons.mpr (.inl (hnew z hz))
        · exact List.mem_cons_of_mem y (hmore z hz)

/-- A search for what can be reached from `t` on its way: whatever has been found, and does not wait in the queue, has
    had its steps taken. `P` is what the steps hand on. -/
structure Tracked (h : Hierarchy) (n : Nat) (t : TypeId) (P : TypeId → Prop) (s : Search) : Prop
    extends Marked n t s where
  waiting : s.queue ⊆ t :: s.found
  expanded : ∀ z ∈ t :: s.found, z ∉ s.queue → h.steps z ⊆ t :: s.found
  reached : ∀ z ∈ s.found, P z

variable {P : TypeId → Prop}

theorem Tracked.expand {rest : List TypeId} (hs : Tracked h n t P s) (hqueue : s.queue = x :: rest)
    (hbound : ∀ z, ∀ y ∈ h.steps z, y < n) (hfirst : ∀ y ∈ h.steps t, P y)
    (hnext : ∀ z, P z → ∀ y ∈ h.steps z, P y) : Tracked h n t P ({ s with queue := rest }.expand h x) := by
  have hmarked : Marked n t { s with queue := rest } := ⟨hs.size, hs.seen, hs.once⟩
  obtain ⟨hwaits, hrest⟩ := List.cons_subset.mp (hqueue ▸ hs.waiting)
  rw [expand_eq]
  obtain ⟨hmarked', hall, new, hfound, hwaiting, hnew⟩ := hmarked.foldl_visit (hbound x)
  have hgrow : t :: s.found ⊆ t :: ((h.steps x).foldl Search.visit { s with queue := rest }).found := by
    rw [hfound, ← List.cons_append]
    exact List.subset_append_left _ _
  have hinto : new ⊆ t :: ((h.steps x).foldl Search.visit { s with queue := rest }).found := by
    rw [hfound, ← List.cons_append]
    exact List.subset_append_right _ _
  refine { hmarked' with waiting := ?_, expanded := fun z hz hidle => ?_, reached := fun z hz => ?_ }
  · rw [hwaiting]
    exact List.append_subset.mpr ⟨List.Subset.trans hrest hgrow, hinto⟩
  · rw [hwaiting, List.mem_append, not_or] at hidle
    rw [hfound, ← List.cons_append, List.mem_append] at hz
    by_cases heq : z = x
    · exact heq ▸ hall
    · refine List.Subset.trans (hs.expanded z (hz.resolve_right hidle.2) ?_) hgrow
      rw [hqueue, List.mem_cons, not_or]
      exact ⟨heq, hidle.1⟩
  · rw [hfound, List.mem_append] at hz
    rcases hz with hz | hz
    · exact hs.reached z hz
    · rcases List.mem_cons.mp hwaits with rfl | hwaits
      · exact hfirst z (hnew z hz)
      · exact hnext x (hs.reached x hwaits) z (hnew z hz)

theorem Tracked.run (hs : Tracked h n t P s) (hbound : ∀ z, ∀ y ∈ h.steps z, y < n) (hfirst : ∀ y ∈ h.steps t, P y)
    (hnext : ∀ z, P z → ∀ y ∈ h.steps z, P y) : Tracked h n t P (s.run h) ∧ (s.run h).queue = [] := by
  fun_induction Search.run h s with
  | case1 s hempty => exact ⟨hs, hempty⟩
  | case2 s x rest hqueue ih => exact ih (hs.expand hqueue hbound hfirst hnext)

theorem tracked_start (ht : t < h.listers.size) : Tracked h h.listers.size t P (start h t) := by
  refine ⟨⟨by simp [start], fun y => ?_, List.nodup_singleton t⟩, by simp [start], by simp [start], by simp [start]⟩
  rw [start, mark_iff (by rwa [Array.size_replicate]), List.mem_singleton]
  simp [Array.getElem?_replicate]

end Search

/-- What a search from `t` finds. -/
def foundFrom (h : Hierarchy) (t : TypeId) : List TypeId := ((Search.start h t).run h).found

section Found

variable {h : Hierarchy} {t : TypeId} (ht : t < h.listers.size)
  (hbound : ∀ z, ∀ y ∈ h.steps z, y < h.listers.size)
include ht hbound

theorem nodup_found : (t :: h.foundFrom t).Nodup :=
  ((Search.tracked_start (P := fun _ => True) ht).run hbound (by simp) (by simp)).1.once

end Found

/-! ### Types that list a type -/

theorem foldl_pushRow (s : TypeId) : ∀ (is : List TypeId) (rows : Array (List TypeId)),
    (is.foldl (pushRow · · s) rows).size = rows.size ∧
    ∀ x i, x ∈ row (is.foldl (pushRow · · s) rows) i ↔ x ∈ row rows i ∨ i < rows.size ∧ i ∈ is ∧ x = s
  | [], rows => by simp
  | j :: is, rows => by
      obtain ⟨ihsize, ihrow⟩ := foldl_pushRow s is (pushRow rows j s)
      refine ⟨ihsize.trans (size_pushRow rows j s), fun x i => ?_⟩
      rw [List.foldl_cons, ihrow, size_pushRow, row_pushRow]
      by_cases hi : j = i ∧ i < rows.size
      · obtain ⟨rfl, hlt⟩ := hi
        simp [hlt]
        tauto
      · rw [if_neg hi, List.mem_cons]
        tauto

theorem foldl_listers (p : Program) : ∀ (ts : List TypeId) (rows : Array (List TypeId)),
    let rows' := ts.foldl (fun rows t => (p.interfacesOf t).foldl (pushRow · · t) rows) rows
    rows'.size = rows.size ∧
      ∀ x i, x ∈ row rows' i ↔ x ∈ row rows i ∨ i < rows.size ∧ x ∈ ts ∧ i ∈ p.interfacesOf x
  | [], rows => by simp
  | t :: ts, rows => by
      obtain ⟨hsize, hrow⟩ := foldl_pushRow t (p.interfacesOf t) rows
      obtain ⟨ihsize, ihrow⟩ := foldl_listers p ts ((p.interfacesOf t).foldl (pushRow · · t) rows)
      refine ⟨ihsize.trans hsize, fun x i => (ihrow x i).trans ?_⟩
      rw [hrow, hsize, List.mem_cons, or_assoc]
      refine or_congr_right ?_
      constructor
      · rintro (⟨hi, hlists, rfl⟩ | ⟨hi, hx, hlists⟩)
        · exact ⟨hi, .inl rfl, hlists⟩
        · exact ⟨hi, .inr hx, hlists⟩
      · rintro ⟨hi, rfl | hx, hlists⟩
        · exact .inl ⟨hi, hlists, rfl⟩
        · exact .inr ⟨hi, hx, hlists⟩

end Hierarchy

/-! ### Implementing -/

namespace Hierarchy

variable {p : Program} {i s t x y : TypeId}

theorem lt_of_mem_interfacesOf (h : x ∈ p.interfacesOf y) : y < p.types.size := by
  by_contra hy
  simp [Program.interfacesOf, Nat.not_lt.mp hy] at h

theorem size_listers (p : Program) : (ofProgram p).listers.size = p.types.size :=
  (foldl_listers p _ _).1.trans Array.size_replicate

theorem mem_listers : s ∈ row (ofProgram p).listers t ↔ t < p.types.size ∧ t ∈ p.interfacesOf s := by
  refine ((foldl_listers p _ _).2 s t).trans ?_
  rw [row_replicate, Array.size_replicate, List.mem_range]
  simp only [List.not_mem_nil, false_or]
  exact and_congr_right fun _ => and_iff_right_of_imp lt_of_mem_interfacesOf

theorem mem_steps : y ∈ (ofProgram p).steps x ↔
    x < p.types.size ∧ ∃ s, x ∈ p.interfacesOf s ∧ (y = s ∨ y ∈ (ofProgram p).subtypesOf s) := by
  simp only [steps, List.mem_flatMap, mem_listers, List.mem_cons, and_assoc, exists_and_left]

theorem lt_of_mem_steps (x y : TypeId) (h : y ∈ (ofProgram p).steps x) : y < (ofProgram p).listers.size := by
  rw [size_listers]
  obtain ⟨-, s, hs, rfl | hy⟩ := mem_steps.mp h
  · exact lt_of_mem_interfacesOf hs
  · obtain ⟨-, -, k, -, hk⟩ := mem_subtypesOf.mp hy
    exact Program.lt_of_ancestor?_succ hk

theorem implementersOf_eq (ht : t < p.types.size) :
    (ofProgram p).implementersOf t = inOrder ((ofProgram p).foundFrom t) :=
  if_pos (size_listers p ▸ ht)

theorem implementersOf_of_size_le (ht : p.types.size ≤ t) : (ofProgram p).implementersOf t = [] :=
  if_neg (Nat.not_lt.mpr (size_listers p ▸ ht))

theorem mem_implementersOf :
    y ∈ (ofProgram p).implementersOf t ↔ t < p.types.size ∧ y ∈ (ofProgram p).foundFrom t := by
  rcases Nat.lt_or_ge t p.types.size with ht | ht
  · rw [implementersOf_eq ht, mem_inOrder, and_iff_right ht]
  · simp [implementersOf_of_size_le ht, Nat.not_lt.mpr ht]

/-- No type is an implementer of itself. -/
theorem ne_of_mem_implementersOf (h : s ∈ (ofProgram p).implementersOf t) : s ≠ t := by
  rintro rfl
  obtain ⟨ht, hs⟩ := mem_implementersOf.mp h
  exact (List.nodup_cons.mp (nodup_found (size_listers p ▸ ht) lt_of_mem_steps)).1 hs

/-- All answers in the memory are those that a search would give. -/
def Keeps (h : Hierarchy) (memory : Memory) : Prop :=
  ∀ t answer, memory.find? t = some answer → h.implementersOf t = answer

end Hierarchy

end CallGraphs
