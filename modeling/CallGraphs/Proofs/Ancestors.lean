import Mathlib.Data.Fintype.Pigeonhole
import CallGraphs.Program.Basic

/-! Ancestors along base types. If all base types are types of the program, a chain with more steps than there are types
    comes back to a type (`exists_cycle`). A chain that ends at all therefore ends within that many steps
    (`chainEnds_iff`), and an ancestor of a type is fewer steps away than there are types (`steps_lt`). -/

namespace CallGraphs.Program

variable {p : Program} {r s t u : TypeId}

/-- The types whose base type is `t`. -/
def derivedOf (p : Program) (t : TypeId) : List TypeId :=
  (List.range p.types.size).filter fun s => p.baseOf s == some t

/-- The type that is `k` base types above `t`. -/
def ancestor? (p : Program) : Nat → TypeId → Option TypeId
  | 0, t => some t
  | k + 1, t => (p.baseOf t).bind (ancestor? p k)

/-- Whether the chain of base types above `t` ends. -/
def chainEnds (p : Program) (t : TypeId) : Bool := (p.ancestor? p.types.size t).isNone

/-- Base types are types of the program. -/
def BasesExist (p : Program) : Prop := ∀ t b, p.baseOf t = some b → b < p.types.size

/-! ### Ancestors -/

theorem baseOf_lt (h : p.baseOf s = some t) : s < p.types.size := by
  obtain ⟨ty, hty, -⟩ := Option.bind_eq_some_iff.mp h
  exact (Array.getElem?_eq_some_iff.mp hty).1

theorem mem_derivedOf : s ∈ p.derivedOf t ↔ p.baseOf s = some t := by
  simp only [derivedOf, List.mem_filter, List.mem_range, beq_iff_eq, and_iff_right_iff_imp]
  exact baseOf_lt

theorem ancestor?_one (p : Program) (s : TypeId) : p.ancestor? 1 s = p.baseOf s := by
  simp only [ancestor?]
  cases p.baseOf s <;> rfl

theorem ancestor?_add (p : Program) (j : Nat) :
    ∀ (k : Nat) (s : TypeId), p.ancestor? (k + j) s = (p.ancestor? k s).bind (p.ancestor? j)
  | 0, s => by rw [Nat.zero_add]; rfl
  | k + 1, s => by
      rw [Nat.add_right_comm, ancestor?, ancestor?]
      cases p.baseOf s with
      | none => rfl
      | some b => exact ancestor?_add p j k b

/-- The last base type of the way up can be taken off instead of the first one. -/
theorem ancestor?_succ (p : Program) (k : Nat) (s : TypeId) :
    p.ancestor? (k + 1) s = (p.ancestor? k s).bind p.baseOf := by
  rw [ancestor?_add, funext (ancestor?_one p)]

/-- A type that is its own ancestor has ancestors without end. -/
theorem ancestor?_isSome_of_cycle {k : Nat} (h : p.ancestor? (k + 1) t = some t) (n : Nat) :
    (p.ancestor? n t).isSome = true := by
  induction n using Nat.strongRecOn with
  | ind n ih =>
    by_cases hn : n ≤ k + 1
    · obtain ⟨j, hj⟩ := Nat.le.dest hn
      rw [← hj, ancestor?_add] at h
      exact Option.isSome_of_isSome_bind (by rw [h]; rfl)
    · obtain ⟨j, hj⟩ := Nat.le.dest (Nat.le_of_not_le hn)
      rw [← hj, ancestor?_add, h, Option.bind_some]
      exact ih j (by omega)

theorem lt_of_ancestor?_succ {k : Nat} (h : p.ancestor? (k + 1) s = some t) : s < p.types.size := by
  obtain ⟨b, hb, -⟩ := Option.bind_eq_some_iff.mp h
  exact baseOf_lt hb

theorem BasesExist.ancestor?_lt (hp : p.BasesExist) (ht : t < p.types.size) :
    ∀ {k : Nat}, p.ancestor? k t = some u → u < p.types.size
  | 0, h => Option.some.inj h ▸ ht
  | k + 1, h => by
      rw [ancestor?_succ] at h
      obtain ⟨v, -, hbase⟩ := Option.bind_eq_some_iff.mp h
      exact hp v u hbase

theorem ancestor?_isSome_of_le {j k : Nat} (hle : j ≤ k) (h : (p.ancestor? k t).isSome = true) :
    (p.ancestor? j t).isSome = true := by
  obtain ⟨d, rfl⟩ := Nat.le.dest hle
  rw [ancestor?_add] at h
  exact Option.isSome_of_isSome_bind h

/-- Of two types on a chain, the one that is met first leads to the other. -/
theorem ancestor?_of_lt {j k : Nat} (hj : p.ancestor? j s = some t) (hk : p.ancestor? k s = some u) (hlt : j < k) :
    ∃ d, p.ancestor? (d + 1) t = some u := by
  obtain ⟨d, rfl⟩ := Nat.exists_eq_add_of_lt hlt
  rw [Nat.add_assoc, ancestor?_add, hj, Option.bind_some] at hk
  exact ⟨d, hk⟩

/-- A chain with as many steps as there are types meets a type twice, -/
theorem BasesExist.exists_repeat (hp : p.BasesExist) (ht : t < p.types.size)
    (hlong : (p.ancestor? p.types.size t).isSome = true) :
    ∃ i j u, i < j ∧ j ≤ p.types.size ∧ p.ancestor? i t = some u ∧ p.ancestor? j t = some u := by
  have hstep : ∀ i : Fin (p.types.size + 1), ∃ u : Fin p.types.size, p.ancestor? i t = some u.val := by
    intro i
    obtain ⟨u, hu⟩ := Option.isSome_iff_exists.mp (ancestor?_isSome_of_le (Nat.le_of_lt_succ i.isLt) hlong)
    exact ⟨⟨u, hp.ancestor?_lt ht hu⟩, hu⟩
  choose f hf using hstep
  obtain ⟨i, j, hne, heq⟩ := Fintype.exists_ne_map_eq_of_card_lt f (by simp)
  rcases Nat.lt_or_gt_of_ne (Fin.val_ne_of_ne hne) with hlt | hlt
  · exact ⟨i, j, f i, hlt, Nat.le_of_lt_succ j.isLt, hf i, heq ▸ hf j⟩
  · exact ⟨j, i, f j, hlt, Nat.le_of_lt_succ i.isLt, hf j, heq ▸ hf i⟩

/-- so it comes back to a type, -/
theorem BasesExist.exists_cycle (hp : p.BasesExist) (ht : t < p.types.size)
    (hlong : (p.ancestor? p.types.size t).isSome = true) :
    ∃ i k u, p.ancestor? i t = some u ∧ p.ancestor? (k + 1) u = some u := by
  obtain ⟨i, j, u, hlt, -, hi, hj⟩ := hp.exists_repeat ht hlong
  obtain ⟨k, hk⟩ := ancestor?_of_lt hi hj hlt
  exact ⟨i, k, u, hi, hk⟩

/-- and whatever is on it comes up in fewer steps than there are types. -/
theorem BasesExist.exists_steps_lt (hp : p.BasesExist) {k : Nat} (hs : s < p.types.size)
    (h : p.ancestor? k s = some t) : ∃ j < p.types.size, p.ancestor? j s = some t := by
  induction k using Nat.strong_induction_on with
  | h k ih =>
    rcases Nat.lt_or_ge k p.types.size with hk | hk
    · exact ⟨k, hk, h⟩
    · -- the steps between the two times are left out
      obtain ⟨i, j, u, hlt, hj, hi, hju⟩ := hp.exists_repeat hs (ancestor?_isSome_of_le hk (by rw [h]; rfl))
      obtain ⟨d, rfl⟩ := Nat.le.dest (Nat.le_trans hj hk)
      rw [ancestor?_add, hju, Option.bind_some] at h
      exact ih (i + d) (by omega) (by rw [ancestor?_add, hi, Option.bind_some, h])

/-! ### Chains that end -/

theorem BasesExist.chainEnds_iff (hp : p.BasesExist) (ht : t < p.types.size) :
    p.chainEnds t = true ↔ ∃ n, p.ancestor? n t = none := by
  rw [chainEnds, Option.isNone_iff_eq_none]
  refine ⟨fun h => ⟨_, h⟩, fun ⟨n, hn⟩ => ?_⟩
  by_contra hlong
  obtain ⟨i, k, u, hu, hcycle⟩ := hp.exists_cycle ht (Option.isSome_iff_ne_none.mpr hlong)
  -- from the cycle on there is always another step
  have hmore : (p.ancestor? (i + n) t).isSome = true := by
    rw [ancestor?_add, hu, Option.bind_some]
    exact ancestor?_isSome_of_cycle hcycle n
  have hsome := ancestor?_isSome_of_le (Nat.le_add_left n i) hmore
  simp [hn] at hsome

/-- The chain of a type ends if the chain of one of its ancestors ends, -/
theorem BasesExist.chainEnds_of_ancestor? (hp : p.BasesExist) {k : Nat} (hs : s < p.types.size)
    (h : p.ancestor? k s = some t) (ht : p.chainEnds t = true) : p.chainEnds s = true := by
  obtain ⟨n, hn⟩ := (hp.chainEnds_iff (hp.ancestor?_lt hs h)).mp ht
  exact (hp.chainEnds_iff hs).mpr ⟨k + n, by rw [ancestor?_add, h, Option.bind_some, hn]⟩

/-- and then the ancestor is fewer steps away than there are types. -/
theorem BasesExist.steps_lt (hp : p.BasesExist) {k : Nat} (hs : s < p.types.size) (h : p.ancestor? k s = some t)
    (ht : p.chainEnds t = true) : k < p.types.size := by
  have hends := hp.chainEnds_of_ancestor? hs h ht
  refine Nat.lt_of_not_le fun hle => ?_
  have hsome := ancestor?_isSome_of_le hle (by rw [h]; rfl)
  rw [Option.isNone_iff_eq_none.mp hends] at hsome
  exact absurd hsome (by decide)

theorem not_cycle_of_chainEnds {k : Nat} (h : p.chainEnds t = true) : p.ancestor? (k + 1) t ≠ some t := by
  intro hcycle
  have hsome := ancestor?_isSome_of_cycle hcycle p.types.size
  rw [Option.isNone_iff_eq_none.mp h] at hsome
  exact absurd hsome (by decide)

/-- A type whose chain ends is met once only on the chain of a type. -/
theorem steps_unique {j k : Nat} (hj : p.ancestor? j s = some t) (hk : p.ancestor? k s = some t)
    (hends : p.chainEnds t = true) : j = k := by
  rcases Nat.lt_trichotomy j k with hlt | heq | hgt
  · obtain ⟨d, hd⟩ := ancestor?_of_lt hj hk hlt
    exact absurd hd (not_cycle_of_chainEnds hends)
  · exact heq
  · obtain ⟨d, hd⟩ := ancestor?_of_lt hk hj hgt
    exact absurd hd (not_cycle_of_chainEnds hends)

/-- On the chain of a type there is at most one type without a base type. -/
theorem root_unique {j k : Nat} (hj : p.ancestor? j s = some t) (hk : p.ancestor? k s = some u)
    (ht : p.baseOf t = none) (hu : p.baseOf u = none) : t = u := by
  rcases Nat.lt_trichotomy j k with hlt | rfl | hgt
  · obtain ⟨d, hd⟩ := ancestor?_of_lt hj hk hlt
    simp [ancestor?, ht] at hd
  · exact Option.some.inj (hj.symm.trans hk)
  · obtain ⟨d, hd⟩ := ancestor?_of_lt hk hj hgt
    simp [ancestor?, hu] at hd

/-- A chain that ends leads to a type without a base type. -/
theorem exists_root : ∀ {n : Nat} {t : TypeId}, p.ancestor? n t = none →
    ∃ k root, p.ancestor? k t = some root ∧ p.baseOf root = none
  | 0, t, h => by simp [ancestor?] at h
  | n + 1, t, h => by
      cases hroot : p.ancestor? n t with
      | none => exact exists_root hroot
      | some root =>
        rw [ancestor?_succ, hroot, Option.bind_some] at h
        exact ⟨n, root, hroot, h⟩

end CallGraphs.Program
