import Mathlib.Data.List.Nodup
import CallGraphs.Forest
import CallGraphs.Proofs.Ancestors

/-! The types below a type, in the order of a walk from the top: the derived types in the order of their numbers, each
    followed by what is below it (`descent_eq_flatMap`). They are the types that have the type as an ancestor
    (`mem_descent`). Side by side, the types without a base type and what is below them make one line of all types
    whose chains end (`mem_lineage`), and no type stands in it twice (`nodup_lineage`). -/

namespace CallGraphs.Program

variable {p : Program} {s t u : TypeId}

/-- The types below `t`; there are none if the chain of `t` does not end. No type is more levels below another one
    than there are types. -/
def descent (p : Program) (t : TypeId) : List TypeId :=
  if t < p.types.size ∧ p.chainEnds t = true then Forest.below p.derivedOf p.types.size t else []

/-- The types without a base type, each followed by what is below it. -/
def lineage (p : Program) : List TypeId :=
  ((List.range p.types.size).filter fun t => p.baseOf t == none).flatMap fun t => t :: p.descent t

/-! ### Walks down the derived types -/

/-- What a walk down the derived types finds below a type reaches the type in as many steps. -/
theorem mem_below : ∀ {depth : Nat} {s t : TypeId},
    s ∈ Forest.below p.derivedOf depth t ↔ ∃ k < depth, p.ancestor? (k + 1) s = some t
  | 0, s, t => by simp [Forest.below]
  | depth + 1, s, t => by
      rw [Forest.below, List.mem_flatMap]
      constructor
      · rintro ⟨u, hu, hs⟩
        have hbase := mem_derivedOf.mp hu
        rw [Forest.preorder_eq_cons, List.mem_cons, mem_below] at hs
        rcases hs with rfl | ⟨k, hk, hs⟩
        · exact ⟨0, Nat.zero_lt_succ _, (ancestor?_one p s).trans hbase⟩
        · exact ⟨k + 1, Nat.succ_lt_succ hk, by rw [ancestor?_succ, hs, Option.bind_some, hbase]⟩
      · rintro ⟨k, hk, hs⟩
        rw [ancestor?_succ] at hs
        obtain ⟨u, hu, hbase⟩ := Option.bind_eq_some_iff.mp hs
        refine ⟨u, mem_derivedOf.mpr hbase, ?_⟩
        rw [Forest.preorder_eq_cons, List.mem_cons, mem_below]
        cases k with
        | zero => exact .inl (Option.some.inj hu)
        | succ k => exact .inr ⟨k, Nat.lt_of_succ_lt_succ hk, hu⟩

theorem exists_ancestor?_of_mem_preorder {depth : Nat} (h : s ∈ Forest.preorder p.derivedOf depth t) :
    ∃ k, p.ancestor? k s = some t := by
  rw [Forest.preorder_eq_cons, List.mem_cons, mem_below] at h
  rcases h with rfl | ⟨k, -, hk⟩
  · exact ⟨0, rfl⟩
  · exact ⟨k + 1, hk⟩

/-- A level on which there is nothing can be left out of a walk. -/
theorem preorder_succ_eq {depth : Nat} (h : ∀ s, p.ancestor? (depth + 1) s ≠ some t) :
    Forest.preorder p.derivedOf (depth + 1) t = Forest.preorder p.derivedOf depth t := by
  induction depth generalizing t with
  | zero =>
    have hkids : p.derivedOf t = [] := by
      refine List.eq_nil_iff_forall_not_mem.mpr fun s hs => h s ?_
      rw [ancestor?_one, mem_derivedOf.mp hs]
    simp [Forest.preorder, hkids]
  | succ depth ih =>
    rw [Forest.preorder, Forest.preorder]
    refine congrArg (t :: ·) (List.flatMap_congr fun u hu => ih fun s hs => h s ?_)
    rw [ancestor?_succ, hs, Option.bind_some, mem_derivedOf.mp hu]

/-- A walk from a type whose chain ends meets no type twice. -/
theorem BasesExist.nodup_preorder (hp : p.BasesExist) {depth : Nat} (hends : p.chainEnds t = true) :
    (Forest.preorder p.derivedOf depth t).Nodup := by
  induction depth generalizing t with
  | zero => exact List.nodup_singleton t
  | succ depth ih =>
    have hkid : ∀ {u}, u ∈ p.derivedOf t → p.ancestor? 1 u = some t :=
      fun hu => (ancestor?_one p _).trans (mem_derivedOf.mp hu)
    have hup : ∀ {u x}, u ∈ p.derivedOf t → x ∈ Forest.preorder p.derivedOf depth u →
        ∃ k, p.ancestor? k x = some u ∧ p.ancestor? (k + 1) x = some t := by
      intro u x hu hx
      obtain ⟨k, hk⟩ := exists_ancestor?_of_mem_preorder hx
      exact ⟨k, hk, by rw [ancestor?_add, hk, Option.bind_some, hkid hu]⟩
    refine List.nodup_cons.mpr ⟨fun hself => ?_, List.nodup_flatMap.mpr ⟨fun u hu => ?_, ?_⟩⟩
    · obtain ⟨u, hu, hself⟩ := List.mem_flatMap.mp hself
      obtain ⟨k, -, hcycle⟩ := hup hu hself
      exact not_cycle_of_chainEnds hends hcycle
    · exact ih (hp.chainEnds_of_ancestor? (baseOf_lt (mem_derivedOf.mp hu)) (hkid hu) hends)
    · -- what lies below two derived types is equally far from `t`, and then the derived types are the same
      refine (List.nodup_range.filter _).imp_of_mem fun {u v} hu hv hne x hx hx' => hne ?_
      obtain ⟨j, hj, hjt⟩ := hup hu hx
      obtain ⟨k, hk, hkt⟩ := hup hv hx'
      obtain rfl : j = k := Nat.succ.inj (steps_unique hjt hkt hends)
      exact Option.some.inj (hj.symm.trans hk)

/-! ### What is below a type -/

theorem descent_of (ht : t < p.types.size) (hends : p.chainEnds t = true) :
    p.descent t = Forest.below p.derivedOf p.types.size t := if_pos ⟨ht, hends⟩

theorem mem_descent : s ∈ p.descent t ↔
    t < p.types.size ∧ p.chainEnds t = true ∧ ∃ k < p.types.size, p.ancestor? (k + 1) s = some t := by
  rw [descent]
  split
  · rename_i h
    rw [mem_below, and_iff_right h.1, and_iff_right h.2]
  · rename_i h
    simp only [List.not_mem_nil, false_iff]
    exact fun hmem => h ⟨hmem.1, hmem.2.1⟩

theorem exists_ancestor?_of_mem_cons (h : s ∈ t :: p.descent t) : ∃ k, p.ancestor? k s = some t := by
  rcases List.mem_cons.mp h with rfl | h
  · exact ⟨0, rfl⟩
  · obtain ⟨-, -, k, -, hk⟩ := mem_descent.mp h
    exact ⟨k + 1, hk⟩

theorem cons_descent (ht : t < p.types.size) (hends : p.chainEnds t = true) :
    t :: p.descent t = Forest.preorder p.derivedOf p.types.size t := by
  rw [descent_of ht hends, Forest.preorder_eq_cons]

/-- Below a type are its derived types, each followed by what is below it. -/
theorem BasesExist.descent_eq_flatMap (hp : p.BasesExist) (ht : t < p.types.size) (hends : p.chainEnds t = true) :
    p.descent t = (p.derivedOf t).flatMap fun u => u :: p.descent u := by
  obtain ⟨n, hn⟩ := Nat.exists_eq_add_one_of_ne_zero (Nat.ne_zero_of_lt ht)
  rw [descent_of ht hends, hn, Forest.below]
  refine List.flatMap_congr fun u hu => ?_
  have hone : p.ancestor? 1 u = some t := (ancestor?_one p u).trans (mem_derivedOf.mp hu)
  have hlt := baseOf_lt (mem_derivedOf.mp hu)
  rw [cons_descent hlt (hp.chainEnds_of_ancestor? hlt hone hends), hn]
  -- a type as many steps below `u` as there are types would be one step too far below `t`
  refine (preorder_succ_eq fun s hs => ?_).symm
  have hfar : p.ancestor? (n + 1 + 1) s = some t := by rw [ancestor?_add, hs, Option.bind_some, hone]
  have hlimit := hp.steps_lt (lt_of_ancestor?_succ hs) hfar hends
  omega

/-- No type is listed twice, or below itself. -/
theorem BasesExist.nodup_cons_descent (hp : p.BasesExist) (t : TypeId) : (t :: p.descent t).Nodup := by
  by_cases h : t < p.types.size ∧ p.chainEnds t = true
  · rw [cons_descent h.1 h.2]
    exact hp.nodup_preorder h.2
  · rw [descent, if_neg h]
    exact List.nodup_singleton t

/-! ### All types in one line -/

theorem BasesExist.chainEnds_of_root (hp : p.BasesExist) (ht : t < p.types.size) (hroot : p.baseOf t = none) :
    p.chainEnds t = true :=
  (hp.chainEnds_iff ht).mpr ⟨1, by rw [ancestor?_one, hroot]⟩

theorem BasesExist.nodup_lineage (hp : p.BasesExist) : p.lineage.Nodup := by
  refine List.nodup_flatMap.mpr ⟨fun t _ => hp.nodup_cons_descent t, (List.nodup_range.filter _).imp_of_mem ?_⟩
  intro t u ht hu hne s hs hs'
  obtain ⟨j, hj⟩ := exists_ancestor?_of_mem_cons hs
  obtain ⟨k, hk⟩ := exists_ancestor?_of_mem_cons hs'
  have hroot := beq_iff_eq.mp (List.mem_filter.mp ht).2
  have hroot' := beq_iff_eq.mp (List.mem_filter.mp hu).2
  exact hne (root_unique hj hk hroot hroot')

theorem BasesExist.mem_lineage (hp : p.BasesExist) :
    t ∈ p.lineage ↔ t < p.types.size ∧ p.chainEnds t = true := by
  rw [lineage, List.mem_flatMap]
  constructor
  · rintro ⟨root, hroot, ht⟩
    obtain ⟨hlt, hnone⟩ := List.mem_filter.mp hroot
    rw [List.mem_range] at hlt
    obtain ⟨k, hk⟩ := exists_ancestor?_of_mem_cons ht
    have ht : t < p.types.size := by
      cases k with
      | zero => exact Option.some.inj hk ▸ hlt
      | succ k => exact lt_of_ancestor?_succ hk
    exact ⟨ht, hp.chainEnds_of_ancestor? ht hk (hp.chainEnds_of_root hlt (beq_iff_eq.mp hnone))⟩
  · rintro ⟨ht, hends⟩
    obtain ⟨k, root, hk, hroot⟩ := exists_root (Option.isNone_iff_eq_none.mp hends)
    have hlt := hp.ancestor?_lt ht hk
    refine ⟨root, List.mem_filter.mpr ⟨List.mem_range.mpr hlt, beq_iff_eq.mpr hroot⟩, ?_⟩
    cases k with
    | zero => exact List.mem_cons.mpr (.inl (Option.some.inj hk))
    | succ k =>
      have hk' := hp.steps_lt ht hk (hp.chainEnds_of_root hlt hroot)
      exact List.mem_cons_of_mem _ (mem_descent.mpr ⟨hlt, hp.chainEnds_of_root hlt hroot, k, by omega, hk⟩)

end CallGraphs.Program
