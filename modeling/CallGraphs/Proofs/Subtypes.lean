import CallGraphs.Proofs.Candidates
import CallGraphs.Proofs.Linearization

/-! Subtypes and the chain of base types. The subtypes of a type are the types that reach it by one or more
    base types (`mem_subtypesOf`), so the part of a subtype's chain that lies below the type consists of
    subtypes again (`mem_subtypesOf_of_chain`). Therefore a call through a class runs no method on an
    instantiated receiver that class hierarchy analysis does not list (`byLive_subset_byHierarchy`). -/

namespace CallGraphs

namespace Program

/-! ### Ancestors without base types from outside -/

variable {p : Program} {s t : TypeId}

theorem ancestor?_of_clipped : ∀ {k : Nat} {s : TypeId}, p.clipped.ancestor? k s = some t → p.ancestor? k s = some t
  | 0, _, h => h
  | k + 1, s, h => by
      obtain ⟨b, hb, hanc⟩ := Option.bind_eq_some_iff.mp h
      rw [baseOf_clipped] at hb
      rw [ancestor?, (TypeGraph.linkOf?_eq_some.mp hb).1, Option.bind_some, ancestor?_of_clipped hanc]

/-- Only the last type on the way up can be one from outside. -/
theorem clipped_ancestor? (ht : t < p.types.size) :
    ∀ {k : Nat} {s : TypeId}, p.ancestor? k s = some t → p.clipped.ancestor? k s = some t
  | 0, _, h => h
  | k + 1, s, h => by
      obtain ⟨b, hb, hanc⟩ := Option.bind_eq_some_iff.mp h
      have hlt : b < p.types.size := by
        cases k with
        | zero => exact Option.some.inj hanc ▸ ht
        | succ k => exact lt_of_ancestor?_succ hanc
      rw [ancestor?, baseOf_clipped, TypeGraph.linkOf?_eq_some.mpr ⟨hb, hlt⟩, Option.bind_some,
        clipped_ancestor? ht hanc]

/-- Above a type that has types below it, a step out of the program is not one too many. -/
theorem chainEnds_of_clipped {k : Nat} (ht : t < p.types.size) (hs : p.ancestor? (k + 1) s = some t)
    (hends : p.clipped.chainEnds t = true) : p.chainEnds t = true := by
  obtain ⟨n, hn⟩ := Nat.exists_eq_add_one_of_ne_zero (Nat.ne_zero_of_lt ht)
  rw [chainEnds, Option.isNone_iff_eq_none, size_clipped] at hends
  rw [chainEnds, Option.isNone_iff_eq_none]
  by_contra hlong
  obtain ⟨out, hout⟩ := Option.ne_none_iff_exists'.mp hlong
  have hbeyond : ¬ out < p.types.size := fun hlt => by simp [clipped_ancestor? hlt hout] at hends
  rw [hn, ancestor?_succ] at hout
  obtain ⟨last, hlast, hbase⟩ := Option.bind_eq_some_iff.mp hout
  have hlt := baseOf_lt hbase
  -- the last type inside has no base type there, and it is too many steps above `s`
  have hroot : p.clipped.baseOf last = none := by
    rw [baseOf_clipped, TypeGraph.linkOf?, hbase]
    exact Option.filter_some_neg (by simpa using hbeyond)
  have hfar : p.clipped.ancestor? (k + 1 + n) s = some last := by
    rw [ancestor?_add, clipped_ancestor? ht hs, Option.bind_some, clipped_ancestor? hlt hlast]
  have hbases := p.basesExist_clipped
  have hsteps := hbases.steps_lt (p.size_clipped.symm ▸ lt_of_ancestor?_succ hs) hfar
    (hbases.chainEnds_of_root (p.size_clipped.symm ▸ hlt) hroot)
  rw [size_clipped] at hsteps
  omega

/-! ### The chain below an ancestor -/

theorem takeWhile_climb_self (p : Program) (t : TypeId) : ∀ n, (p.climb n t).takeWhile (· != t) = []
  | 0 => rfl
  | n + 1 => by
      rw [climb]
      split <;> simp

/-- The chain of a type whose ancestor is `t`, up to the first occurrence of `t`, consists of types that reach
    `t` in no more steps. -/
theorem ancestor?_of_mem_takeWhile {p : Program} {t x : TypeId} :
    ∀ {k : Nat} {s : TypeId} (n : Nat), p.ancestor? (k + 1) s = some t →
      x ∈ (p.climb n s).takeWhile (· != t) → ∃ j ≤ k, p.ancestor? (j + 1) x = some t
  | _, _, 0, _, hx => by simp [climb] at hx
  | k, s, n + 1, hs, hx => by
      obtain ⟨b, hb, hanc⟩ := Option.bind_eq_some_iff.mp hs
      rw [climb, if_pos (baseOf_lt hb), hb, List.takeWhile_cons] at hx
      split at hx
      · rcases List.mem_cons.mp hx with rfl | hx
        · exact ⟨k, Nat.le_refl k, hs⟩
        · cases k with
          | zero =>
            -- the base type is `t` itself, where the chain is cut
            obtain rfl : b = t := Option.some.inj hanc
            simp [takeWhile_climb_self] at hx
          | succ k =>
            obtain ⟨j, hj, hanc⟩ := ancestor?_of_mem_takeWhile n hanc hx
            exact ⟨j, Nat.le_succ_of_le hj, hanc⟩
      · simp at hx

end Program

namespace Hierarchy

/-- The subtypes of a type reach it by base types; a type whose own chain does not end has none. -/
theorem mem_subtypesOf {p : Program} {s t : TypeId} : s ∈ (ofProgram p).subtypesOf t ↔
    t < p.types.size ∧ p.chainEnds t = true ∧ ∃ k < p.types.size, p.ancestor? (k + 1) s = some t := by
  rw [subtypesOf_eq_descent_clipped, Program.mem_descent, p.size_clipped]
  refine and_congr_right fun ht => ?_
  constructor
  · rintro ⟨hends, k, hk, hanc⟩
    have hanc := Program.ancestor?_of_clipped hanc
    exact ⟨Program.chainEnds_of_clipped ht hanc hends, k, hk, hanc⟩
  · rintro ⟨hends, k, hk, hanc⟩
    refine ⟨?_, k, hk, Program.clipped_ancestor? ht hanc⟩
    rw [Program.chainEnds, Option.isNone_iff_eq_none] at hends ⊢
    rw [p.size_clipped]
    exact Option.eq_none_iff_forall_ne_some.mpr fun u hu => by simp [Program.ancestor?_of_clipped hu] at hends

theorem mem_subtypesOf_of_chain {p : Program} {r t x : TypeId} (hr : r ∈ (ofProgram p).subtypesOf t)
    (hx : x ∈ (p.chain r).takeWhile (· != t)) : x ∈ (ofProgram p).subtypesOf t := by
  obtain ⟨ht, hends, k, hk, hanc⟩ := mem_subtypesOf.mp hr
  obtain ⟨j, hj, hanc⟩ := Program.ancestor?_of_mem_takeWhile _ hanc hx
  exact mem_subtypesOf.mpr ⟨ht, hends, j, by omega, hanc⟩

end Hierarchy

namespace Dispatch

/-! ### Calls through a class -/

/-- What runs on a receiver is the nearest override on the way up to the declaring type, or the target. -/
theorem runOnClass_eq_some {p : Program} {target c : MethodId} {m : MethodDef} {r : TypeId}
    (h : runOnClass p target m r = some c) :
    (∃ front x back, (p.chain r).takeWhile (· != m.owner) = front ++ x :: back ∧ p.override? m x = some c ∧
      ∀ y ∈ front, p.override? m y = none) ∨ (c = target ∧ m.isAbstract = false) := by
  unfold runOnClass at h
  split at h
  · rename_i o ho
    obtain rfl : o = c := Option.some.inj h
    exact .inl (List.findSome?_eq_some_iff.mp ho)
  · split at h
    · rename_i hcond
      obtain ⟨-, habs⟩ := Bool.and_eq_true_iff.mp hcond
      exact .inr ⟨(Option.some.inj h).symm, by simpa using habs⟩
    · simp at h

/-- The override that runs on a receiver below the declaring type belongs to a subtype of it. -/
theorem exists_override_of_runOnClass {p : Program} {target c : MethodId} {m : MethodDef} {r : TypeId}
    (hr : r = m.owner ∨ r ∈ (Hierarchy.ofProgram p).subtypesOf m.owner)
    (hrun : runOnClass p target m r = some c) :
    (∃ x ∈ (Hierarchy.ofProgram p).subtypesOf m.owner, p.override? m x = some c) ∨
      (c = target ∧ m.isAbstract = false) := by
  rcases runOnClass_eq_some hrun with ⟨front, x, back, hbelow, hover, -⟩ | hself
  · have hx : x ∈ (p.chain r).takeWhile (· != m.owner) := by simp [hbelow]
    rcases hr with rfl | hr
    · simp [Program.chain, Program.takeWhile_climb_self] at hx
    · exact .inl ⟨x, Hierarchy.mem_subtypesOf_of_chain hr hx, hover⟩
  · exact .inr hself

/-- Through a class, instantiated receivers run nothing that class hierarchy analysis does not list. -/
theorem byLive_subset_byHierarchy {p : Program} {a b : Algorithm} {live : LiveTypes} {target : MethodId}
    {m : MethodDef} (hm : p.methods[target]? = some m) (hclass : p.isInterface m.owner = false) :
    (ofProgram p a).byLive live target ⊆ (ofProgram p b).byHierarchy target := by
  intro c hc
  obtain ⟨m', hm', hc⟩ := mem_byLive.mp hc
  obtain rfl : m' = m := Option.some.inj (hm'.symm.trans hm)
  have hself : m'.isAbstract = false → target ∈ declaredCandidate p target m' := by
    intro habs
    simp [declaredCandidate, habs, hclass]
  refine mem_byHierarchy.mpr ⟨m', hm', ?_⟩
  rcases hc with ⟨hopen, r, hr, -, hrun⟩ | ⟨-, habs, rfl⟩
  · have hvirtual : m'.isVirtual = true := by simpa [isOpen, ofProgram, hclass] using hopen
    simp only [receiverTypes, ofProgram, hclass, Bool.false_eq_true, if_false, List.mem_cons] at hr
    simp only [runOn, ofProgram, hclass, Bool.false_eq_true, if_false] at hrun
    rcases exists_override_of_runOnClass hr hrun with ⟨x, hx, hover⟩ | ⟨rfl, habs⟩
    · exact .inr (mem_replacements.mpr (.inr ⟨hclass, hvirtual, x, hx, hover⟩))
    · exact .inl (hself habs)
  · exact .inl (hself habs)

end Dispatch

end CallGraphs
