import CallGraphs.Proofs.Building
import CallGraphs.Proofs.ClassCalls

/-! Chains of base types in a finalized program. Base types are types of the program, so the subtypes of a type whose
    chain ends are all types that have it as an ancestor (`mem_subtypesOf_iff`). A walk comes to a type if the chain of
    the type ends (`seen_iff`), so a program without cycles is one about which the hierarchy has nothing to warn of
    (`acyclic_iff_no_warning`). -/

namespace CallGraphs

namespace Program

variable {p : Program} {r s t u : TypeId}

theorem Finalized.basesExist (h : p.Finalized) : p.BasesExist := by
  intro t b hb
  obtain ⟨ty, hty, hbase⟩ := Option.bind_eq_some_iff.mp hb
  exact ((h.bound.base t ty b hty).mp hbase).2.1

/-! ### The chain as a list -/

theorem mem_climb {n : Nat} : t ∈ p.climb n s ↔ t < p.types.size ∧ ∃ k < n, p.ancestor? k s = some t := by
  constructor
  · intro h
    induction n generalizing s with
    | zero => simp [climb] at h
    | succ n ih =>
      rw [climb] at h
      split at h
      · rename_i hs
        rcases List.mem_cons.mp h with rfl | h
        · exact ⟨hs, 0, Nat.zero_lt_succ n, rfl⟩
        · cases hb : p.baseOf s with
          | none => simp [hb] at h
          | some b =>
            rw [hb] at h
            obtain ⟨ht, k, hk, hanc⟩ := ih h
            exact ⟨ht, k + 1, Nat.succ_lt_succ hk, by rw [ancestor?, hb, Option.bind_some, hanc]⟩
      · simp at h
  · rintro ⟨ht, k, hk, hanc⟩
    exact mem_climb_of_ancestor? ht hanc hk

theorem exists_ancestor?_of_mem_chain (h : t ∈ p.chain s) : t < p.types.size ∧ ∃ k, p.ancestor? k s = some t := by
  obtain ⟨ht, k, -, hanc⟩ := mem_climb.mp h
  exact ⟨ht, k, hanc⟩

/-! ### Programs without cycles -/

/-- No type is its own ancestor. -/
def Acyclic (p : Program) : Prop := ∀ t k, p.ancestor? (k + 1) t ≠ some t

theorem BasesExist.acyclic_iff (hp : p.BasesExist) : p.Acyclic ↔ ∀ t < p.types.size, p.chainEnds t = true := by
  constructor
  · intro h t ht
    by_contra hends
    have hlong : (p.ancestor? p.types.size t).isSome = true := by
      rwa [chainEnds, Option.isNone_iff_eq_none, ← ne_eq, ← Option.isSome_iff_ne_none] at hends
    obtain ⟨-, k, u, -, hcycle⟩ := hp.exists_cycle ht hlong
    exact h u k hcycle
  · intro h t k hcycle
    exact not_cycle_of_chainEnds (h t (lt_of_ancestor?_succ hcycle)) hcycle

end Program

namespace Hierarchy

variable {p : Program} {r s t : TypeId}

theorem mem_subtypesOf_iff (hp : p.BasesExist) : s ∈ (ofProgram p).subtypesOf t ↔
    p.chainEnds t = true ∧ ∃ k, p.ancestor? (k + 1) s = some t := by
  rw [mem_subtypesOf]
  constructor
  · rintro ⟨-, hends, k, -, hanc⟩
    exact ⟨hends, k, hanc⟩
  · rintro ⟨hends, k, hanc⟩
    have hs := Program.lt_of_ancestor?_succ hanc
    have hk := hp.steps_lt hs hanc hends
    exact ⟨hp.ancestor?_lt hs hanc, hends, k, by omega, hanc⟩

theorem chainEnds_of_mem_subtypesOf (hp : p.BasesExist) (hs : s ∈ (ofProgram p).subtypesOf t) :
    p.chainEnds s = true := by
  obtain ⟨hends, k, hanc⟩ := (mem_subtypesOf_iff hp).mp hs
  exact hp.chainEnds_of_ancestor? (Program.lt_of_ancestor?_succ hanc) hanc hends

theorem subtypesOf_trans (hp : p.BasesExist) (hr : r ∈ (ofProgram p).subtypesOf s)
    (hs : s ∈ (ofProgram p).subtypesOf t) : r ∈ (ofProgram p).subtypesOf t := by
  obtain ⟨-, j, hj⟩ := (mem_subtypesOf_iff hp).mp hr
  obtain ⟨hends, k, hk⟩ := (mem_subtypesOf_iff hp).mp hs
  refine (mem_subtypesOf_iff hp).mpr ⟨hends, j + 1 + k, ?_⟩
  rw [Nat.add_assoc, Program.ancestor?_add, hj, Option.bind_some, hk]

/-- A type on the chain of `r` whose own chain ends is `r` or has `r` as a subtype. -/
theorem eq_or_mem_subtypesOf (hp : p.BasesExist) (h : t ∈ p.chain r) (hends : p.chainEnds t = true) :
    r = t ∨ r ∈ (ofProgram p).subtypesOf t := by
  obtain ⟨-, k, hanc⟩ := Program.exists_ancestor?_of_mem_chain h
  cases k with
  | zero => exact .inl (Option.some.inj hanc)
  | succ k => exact .inr ((mem_subtypesOf_iff hp).mpr ⟨hends, k, hanc⟩)

/-- The walk comes to the types whose chains end. -/
theorem seen_iff (hp : p.BasesExist) (ht : t < p.types.size) :
    (Walk.ofProgram p).seen[t]? = some true ↔ p.chainEnds t = true := by
  obtain ⟨htracked, hdone⟩ := Walk.tracked_ofProgram p
  rw [htracked.seen, (htracked.stretch_eq (t := t) hdone).1, hp.clipped_eq, hp.mem_lineage, and_iff_right ht]

/-- The hierarchy warns of types that the walk has not come to, so it is silent about a program without cycles. -/
theorem acyclic_iff_no_warning (hp : p.BasesExist) :
    p.Acyclic ↔ ∀ n ∈ notices p, n.level ≠ .warn := by
  have hsize : (Walk.ofProgram p).seen.size = p.types.size := (Walk.tracked_ofProgram p).1.seenSize
  have hcount : (Walk.ofProgram p).seen.count true = p.types.size ↔ p.Acyclic := by
    rw [← hsize, Array.count_eq_size, hp.acyclic_iff]
    constructor
    · intro hall t ht
      rw [← seen_iff hp ht, Array.getElem?_eq_getElem (hsize ▸ ht)]
      exact congrArg some (hall _ (Array.getElem_mem _)).symm
    · intro hends b hb
      obtain ⟨t, ht, rfl⟩ := Array.mem_iff_getElem.mp hb
      have hseen := (seen_iff hp (hsize ▸ ht)).mpr (hends t (hsize ▸ ht))
      rw [Array.getElem?_eq_getElem ht] at hseen
      exact (Option.some.inj hseen).symm
  rw [notices]
  split
  · rename_i hall
    simp [hcount.mp hall, Notice.debug]
  · rename_i hmissed
    simp [mt hcount.mpr hmissed, Notice.warn]

end Hierarchy

end CallGraphs
