import Mathlib.Order.Bounds.Defs
import CallGraphs.Proofs.Derivation

/-! Resolution of method references. A reference names a type and a signature. The method it means is looked for in that
    type, then in its base type, and so on; the first type that declares the signature decides (`FirstAt`). The walk is
    cut after a number of steps, but the type that decides is one that no step has shown before, so it comes up while
    there are still types that have not been seen, on a straight chain and on one that runs into a cycle
    (`FirstAt.steps_lt`). The cut therefore changes no answer (`resolve?_nearest`). -/

namespace CallGraphs.Program

variable {p : Program} {t b : TypeId} {m : MethodId} {sig : Signature}

/-! ### Declarations of a signature -/

/-- The name, the parameters and the result of a method. -/
def signatureOf? (p : Program) (m : MethodId) : Option Signature := p.methods[m]?.map (·.toSignature)

/-- The type declares the method, with this signature. -/
def Declares (p : Program) (t : TypeId) (sig : Signature) (m : MethodId) : Prop :=
  p.ownerOf? m = some t ∧ p.signatureOf? m = some sig

/-- The method of a type that a reference with this signature means. -/
def declared? (p : Program) (sig : Signature) (t : TypeId) : Option MethodId :=
  p.firstMethod? t fun d => d.toSignature == sig

theorem declared?_eq (p : Program) (sig : Signature) (t : TypeId) :
    p.declared? sig t = (p.methodsOf t).find? fun m => p.signatureOf? m == some sig := by
  have htest : ∀ m, (p.methods[m]?.map fun d => d.toSignature == sig).getD false = (p.signatureOf? m == some sig) := by
    intro m
    rw [signatureOf?]
    cases p.methods[m]? <;> rfl
  simp only [declared?, firstMethod?, methodsOf, htest]
  cases p.types[t]? <;> rfl

/-- A type answers with the first of its methods that has the signature, -/
theorem WellFormed.declared?_eq_some (h : p.WellFormed) :
    p.declared? sig t = some m ↔ IsLeast {x | p.Declares t sig x} m := by
  rw [declared?_eq, h.methods, List.find?_filter, List.find?_range_eq_some]
  simp only [Bool.not_eq_true', decide_eq_true_iff, decide_eq_false_iff_not, beq_iff_eq]
  constructor
  · rintro ⟨hm, -, hbefore⟩
    exact ⟨hm, fun x hx => Nat.le_of_not_lt fun hlt => hbefore x hlt hx⟩
  · rintro ⟨hm, hleast⟩
    exact ⟨hm, List.mem_range.mpr (ownerOf?_lt hm.1), fun j hj hdeclared => Nat.not_le_of_lt hj (hleast hdeclared)⟩

/-- and with none exactly if it declares no method with the signature. -/
theorem WellFormed.declared?_eq_none (h : p.WellFormed) :
    p.declared? sig t = none ↔ ∀ x, ¬ p.Declares t sig x := by
  rw [declared?_eq, List.find?_eq_none]
  simp only [h.mem_methodsOf, beq_iff_eq, Declares, not_and]

/-! ### The first answer along a chain -/

/-- The first answer along the chain from `t` is given after `k` steps. -/
def FirstAt (p : Program) (f : TypeId → Option MethodId) (t : TypeId) (k : Nat) (m : MethodId) : Prop :=
  (p.ancestor? k t).bind f = some m ∧ ∀ j < k, (p.ancestor? j t).bind f = none

section FirstAt

variable {f : TypeId → Option MethodId} {k n : Nat}

/-- A type that has an answer decides, -/
theorem firstAt_of_some {c : MethodId} (hc : f t = some c) : p.FirstAt f t k m ↔ k = 0 ∧ c = m := by
  constructor
  · rintro ⟨hm, hbefore⟩
    rcases Nat.eq_zero_or_pos k with rfl | hk
    · exact ⟨rfl, Option.some.inj (hc.symm.trans hm)⟩
    · exact absurd (hc.symm.trans (hbefore 0 hk)) (by simp)
  · rintro ⟨rfl, rfl⟩
    exact ⟨hc, fun j hj => absurd hj (Nat.not_lt_zero j)⟩

/-- any other type passes the question on to its base type, -/
theorem firstAt_of_none (hnone : f t = none) (hb : p.baseOf t = some b) :
    p.FirstAt f t k m ↔ ∃ k', k = k' + 1 ∧ p.FirstAt f b k' m := by
  have hstep : ∀ j, p.ancestor? (j + 1) t = p.ancestor? j b := fun j => by rw [ancestor?, hb, Option.bind_some]
  constructor
  · rintro ⟨hm, hbefore⟩
    cases k with
    | zero => exact absurd (hnone.symm.trans hm) (by simp)
    | succ k => exact ⟨k, rfl, hstep k ▸ hm, fun j hj => hstep j ▸ hbefore (j + 1) (Nat.succ_lt_succ hj)⟩
  · rintro ⟨k', rfl, hm, hbefore⟩
    refine ⟨(hstep k').symm ▸ hm, fun j hj => ?_⟩
    cases j with
    | zero => exact hnone
    | succ j => exact (hstep j).symm ▸ hbefore j (Nat.lt_of_succ_lt_succ hj)

/-- and without a base type the question stays open. -/
theorem not_firstAt_of_root (hnone : f t = none) (hb : p.baseOf t = none) : ¬ p.FirstAt f t k m := by
  rintro ⟨hm, -⟩
  cases k with
  | zero => exact absurd (hnone.symm.trans hm) (by simp)
  | succ k => simp [ancestor?, hb] at hm

/-- A walk of at most `n` types finds the first answer if it is given within so many steps. -/
theorem BasesExist.findSome?_climb (hp : p.BasesExist) (ht : t < p.types.size) :
    (p.climb n t).findSome? f = some m ↔ ∃ k < n, p.FirstAt f t k m := by
  induction n generalizing t with
  | zero => simp [climb]
  | succ n ih =>
    rw [climb, if_pos ht, List.findSome?_cons]
    cases hc : f t with
    | some c =>
      simp only [firstAt_of_some hc, Option.some.injEq]
      constructor
      · rintro rfl
        exact ⟨0, Nat.zero_lt_succ n, rfl, rfl⟩
      · rintro ⟨-, -, -, rfl⟩
        rfl
    | none =>
      cases hb : p.baseOf t with
      | none => simp [not_firstAt_of_root hc hb]
      | some b =>
        simp only [ih (hp t b hb), firstAt_of_none hc hb]
        constructor
        · rintro ⟨k, hk, hfirst⟩
          exact ⟨k + 1, Nat.succ_lt_succ hk, k, rfl, hfirst⟩
        · rintro ⟨_, hk, k, rfl, hfirst⟩
          exact ⟨k, Nat.lt_of_succ_lt_succ hk, hfirst⟩

/-- The first answer is given by a type that did not come up before, so it is given in fewer steps than there are
    types. -/
theorem FirstAt.steps_lt (hp : p.BasesExist) (ht : t < p.types.size) (h : p.FirstAt f t k m) : k < p.types.size := by
  obtain ⟨s, hs, hm⟩ := Option.bind_eq_some_iff.mp h.1
  obtain ⟨j, hj, hanc⟩ := hp.exists_steps_lt ht hs
  refine Nat.lt_of_le_of_lt (Nat.le_of_not_lt fun hlt => ?_) hj
  have hnone := h.2 j hlt
  rw [hanc, Option.bind_some, hm] at hnone
  exact absurd hnone (by simp)

/-- No walk that may look at as many types as there are stops too early. -/
theorem BasesExist.findSome?_climb_of_le (hp : p.BasesExist) (ht : t < p.types.size) (hn : p.types.size ≤ n) :
    (p.climb n t).findSome? f = some m ↔ ∃ k, p.FirstAt f t k m := by
  rw [hp.findSome?_climb ht]
  constructor
  · rintro ⟨k, -, hfirst⟩
    exact ⟨k, hfirst⟩
  · rintro ⟨k, hfirst⟩
    exact ⟨k, Nat.lt_of_lt_of_le (hfirst.steps_lt hp ht) hn, hfirst⟩

theorem BasesExist.findSome?_climb_eq_none (hp : p.BasesExist) (ht : t < p.types.size) (hn : p.types.size ≤ n) :
    (p.climb n t).findSome? f = none ↔ ∀ s, Relation.ReflTransGen p.BaseLink t s → f s = none := by
  rw [List.findSome?_eq_none_iff]
  exact forall_congr' fun s => by rw [hp.mem_climb_iff hn, and_iff_right ht]

end FirstAt

/-! ### The length of a walk -/

theorem length_climb_le (p : Program) : ∀ (n : Nat) (t : TypeId), (p.climb n t).length ≤ n
  | 0, _ => Nat.le_refl 0
  | n + 1, t => by
      rw [climb]
      split
      · cases p.baseOf t with
        | none => simp
        | some b => exact Nat.succ_le_succ (length_climb_le p n b)
      · exact Nat.zero_le _

theorem BasesExist.length_climb (hp : p.BasesExist) {n : Nat} (ht : t < p.types.size)
    (h : ∀ k, (p.ancestor? k t).isSome = true) : (p.climb n t).length = n := by
  induction n generalizing t with
  | zero => rfl
  | succ n ih =>
    have hbase := h 1
    rw [ancestor?_one] at hbase
    obtain ⟨b, hb⟩ := Option.isSome_iff_exists.mp hbase
    have hmore : ∀ k, (p.ancestor? k b).isSome = true := by
      intro k
      have hk := h (k + 1)
      rwa [ancestor?, hb, Option.bind_some] at hk
    rw [climb, if_pos ht, hb, List.length_cons, ih (hp t b hb) hmore]

/-- A walk into a cycle goes as far as it may and then ends. -/
theorem BasesExist.length_chain_of_meetsCycle (hp : p.BasesExist) (h : p.MeetsCycle t) :
    (p.chain t).length = p.types.size + 1 := by
  have hsome : ∀ k, (p.ancestor? k t).isSome = true := by
    intro k
    rw [Option.isSome_iff_ne_none]
    intro hnone
    exact hp.ends_iff_not_meetsCycle.mp (ends_iff.mpr ⟨k, hnone⟩) h
  obtain ⟨b, hb⟩ := Option.isSome_iff_exists.mp (hsome 1)
  exact hp.length_climb (lt_of_ancestor?_succ hb) hsome

/-! ### References -/

/-- Resolution that looks at no more than `n` types. -/
def resolveWithin (p : Program) (n : Nat) (r : MethodRef) : Option MethodId :=
  (p.typeNamed? r.owner).bind fun t => (p.climb n t).findSome? (p.declared? r.toSignature)

theorem resolve?_eq_resolveWithin (p : Program) (r : MethodRef) :
    p.resolve? r = p.resolveWithin (p.types.size + 1) r := rfl

section References

variable {r : MethodRef} {n : Nat} (hp : p.Finalized) (hn : p.types.size ≤ n)

include hp hn

theorem Finalized.resolveWithin_eq_some : p.resolveWithin n r = some m ↔
    ∃ t, p.fullNameOf? t = some r.owner ∧ ∃ k, p.FirstAt (p.declared? r.toSignature) t k m := by
  rw [resolveWithin, Option.bind_eq_some_iff]
  refine exists_congr fun t => ?_
  rw [hp.wellFormed.typeNamed?_iff]
  exact and_congr_right fun hname => hp.basesExist.findSome?_climb_of_le (fullNameOf?_lt hname) hn

theorem Finalized.resolveWithin_eq_none : p.resolveWithin n r = none ↔
    (∀ t, p.fullNameOf? t ≠ some r.owner) ∨
    ∃ t, p.fullNameOf? t = some r.owner ∧
      ∀ s, Relation.ReflTransGen p.BaseLink t s → p.declared? r.toSignature s = none := by
  rw [← typeNamed?_eq_none, resolveWithin]
  simp only [← hp.wellFormed.typeNamed?_iff]
  cases hname : p.typeNamed? r.owner with
  | none => simp
  | some t =>
    have ht := fullNameOf?_lt (hp.wellFormed.typeNamed?_iff.mp hname)
    simp [hp.basesExist.findSome?_climb_eq_none ht hn]

end References

/-- A reference resolves to the first method with its signature in the nearest type that declares one, however far up
    the chain of base types that is. It stays unresolved exactly if there is no such type, or no type of the name. A
    walk that may look at as many types as there are gives the same answer, and the walk ends on cycles as well. -/
theorem resolve?_nearest (p : Program) (hp : p.Finalized) (r : MethodRef) :
    (∀ m, p.resolve? r = some m ↔
      ∃ t k s, p.fullNameOf? t = some r.owner ∧ p.ancestor? k t = some s ∧
        IsLeast {x | p.Declares s r.toSignature x} m ∧
        ∀ j < k, ∀ u, p.ancestor? j t = some u → ∀ x, ¬ p.Declares u r.toSignature x) ∧
    (p.resolve? r = none ↔
      (∀ t, p.fullNameOf? t ≠ some r.owner) ∨
      ∃ t, p.fullNameOf? t = some r.owner ∧
        ∀ s, Relation.ReflTransGen p.BaseLink t s → ∀ x, ¬ p.Declares s r.toSignature x) ∧
    (∀ n, p.types.size ≤ n → p.resolveWithin n r = p.resolve? r) ∧
    (∀ t, (p.chain t).length ≤ p.types.size + 1 ∧ (p.MeetsCycle t → (p.chain t).length = p.types.size + 1)) := by
  have hwide : p.types.size ≤ p.types.size + 1 := Nat.le_succ _
  refine ⟨fun m => ?_, ?_, fun n hn => ?_, fun t => ⟨length_climb_le p _ t, hp.basesExist.length_chain_of_meetsCycle⟩⟩
  · rw [resolve?_eq_resolveWithin, hp.resolveWithin_eq_some hwide]
    simp only [FirstAt, Option.bind_eq_some_iff, Option.bind_eq_none_iff, hp.wellFormed.declared?_eq_some,
      hp.wellFormed.declared?_eq_none]
    constructor
    · rintro ⟨t, hname, k, ⟨s, hs, hleast⟩, hbefore⟩
      exact ⟨t, k, s, hname, hs, hleast, hbefore⟩
    · rintro ⟨t, k, s, hname, hs, hleast, hbefore⟩
      exact ⟨t, hname, k, ⟨s, hs, hleast⟩, hbefore⟩
  · simp only [resolve?_eq_resolveWithin, hp.resolveWithin_eq_none hwide, hp.wellFormed.declared?_eq_none]
  · refine Option.ext fun m => ?_
    rw [resolve?_eq_resolveWithin, hp.resolveWithin_eq_some hn, hp.resolveWithin_eq_some hwide]

/-- A type below two types that derive from each other. Only the last type of its chain declares methods. -/
def coop : List Edit := [
  .addModule "Farm.dll",
  .addType 0 { name := "Chick", baseName := "Egg" } none,
  .addType 0 { name := "Egg", baseName := "Hen" } none,
  .addType 0 { name := "Hen", baseName := "Egg" } none,
  .addMethod 2 { name := "Lay", params := ["System.Int32"] },
  .addMethod 2 { name := "Lay" },
  .addMethod 2 { name := "Lay" }]

theorem resolve?_nearest_coop :
    let p := (coop.foldl edit {}).finalize
    let lay : MethodRef := { name := "Lay", owner := "Chick" }
    let fly : MethodRef := { name := "Fly", owner := "Chick" }
    p.Finalized ∧ p.resolve? lay = some 1 ∧ p.resolveWithin 2 lay = none ∧
    (∀ n, 3 ≤ n → p.resolveWithin n lay = some 1) ∧ p.resolve? fly = none ∧
    (∀ s, Relation.ReflTransGen p.BaseLink 0 s → ∀ x, ¬ p.Declares s fly.toSignature x) ∧
    p.MeetsCycle 0 ∧ (p.chain 0).length = 4 := by
  intro p lay fly
  have hp : p.Finalized := ⟨coop, by decide +kernel, rfl⟩
  have hsize : p.types.size = 3 := by decide +kernel
  have hlay : p.resolve? lay = some 1 := by decide +kernel
  have hfly : p.resolve? fly = none := by decide +kernel
  have hcycle : p.MeetsCycle 0 :=
    ⟨1, reaches_iff.mpr ⟨1, by decide +kernel⟩, derives_iff.mpr ⟨1, by decide +kernel⟩⟩
  obtain ⟨-, -, hwithin, hwalk⟩ := resolve?_nearest p hp lay
  obtain ⟨-, hnone, -, -⟩ := resolve?_nearest p hp fly
  refine ⟨hp, hlay, by decide +kernel, fun n hn => (hwithin n (hsize ▸ hn)).trans hlay, hfly, ?_, hcycle,
    (hwalk 0).2 hcycle |>.trans (by rw [hsize])⟩
  obtain hunknown | ⟨t, hname, hall⟩ := hnone.mp hfly
  · exact absurd (by decide +kernel) (hunknown 0)
  · obtain rfl : t = 0 := hp.wellFormed.names t 0 _ hname (by decide +kernel)
    exact hall

end CallGraphs.Program
