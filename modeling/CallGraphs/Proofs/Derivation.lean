import Mathlib.Logic.Relation
import CallGraphs.Proofs.BaseChains

/-! Derivation as a relation, and the subtypes that a hierarchy lists. A type derives from another one if base types
    lead to it in one or more steps. The subtypes of a type whose chain ends are its derived types in the order of their
    numbers, each followed by its own subtypes (`subtypesOf_eq_flatMap`). So there is one line of all types with an end
    of their chain in which every type is followed by its subtypes, without a gap (`cons_subtypesOf_in_line`), and
    each list of subtypes is the exact strict relation (`subtypesOf_exact`). -/

namespace CallGraphs

namespace Program

variable {p : Program} {r s t u : TypeId}

/-! ### Base types as links -/

/-- The base type of `s` is `t`. -/
def BaseLink (p : Program) (s t : TypeId) : Prop := p.baseOf s = some t

/-- Base types lead from `s` to `t` in one or more steps. -/
def Derives (p : Program) : TypeId → TypeId → Prop := Relation.TransGen p.BaseLink

/-- Base types lead from `t` to a type that has none. -/
def Ends (p : Program) (t : TypeId) : Prop :=
  ∃ root, Relation.ReflTransGen p.BaseLink t root ∧ p.baseOf root = none

/-- Base types lead from `t`, in some steps or none, to a type that derives from itself. -/
def MeetsCycle (p : Program) (t : TypeId) : Prop := ∃ u, Relation.ReflTransGen p.BaseLink t u ∧ p.Derives u u

theorem reaches_iff : Relation.ReflTransGen p.BaseLink s t ↔ ∃ k, p.ancestor? k s = some t := by
  constructor
  · intro h
    induction h with
    | refl => exact ⟨0, rfl⟩
    | tail _ hlink ih =>
      obtain ⟨k, hk⟩ := ih
      exact ⟨k + 1, by rw [ancestor?_succ, hk, Option.bind_some, hlink]⟩
  · rintro ⟨k, hk⟩
    induction k generalizing t with
    | zero => exact Option.some.inj hk ▸ .refl
    | succ k ih =>
      rw [ancestor?_succ] at hk
      obtain ⟨u, hu, hbase⟩ := Option.bind_eq_some_iff.mp hk
      exact (ih hu).tail hbase

theorem derives_iff : p.Derives s t ↔ ∃ k, p.ancestor? (k + 1) s = some t := by
  rw [Derives, Relation.TransGen.tail'_iff]
  constructor
  · rintro ⟨u, hu, hlink⟩
    obtain ⟨k, hk⟩ := reaches_iff.mp hu
    exact ⟨k, by rw [ancestor?_succ, hk, Option.bind_some, hlink]⟩
  · rintro ⟨k, hk⟩
    rw [ancestor?_succ] at hk
    obtain ⟨u, hu, hbase⟩ := Option.bind_eq_some_iff.mp hk
    exact ⟨u, reaches_iff.mpr ⟨k, hu⟩, hbase⟩

theorem ends_iff : p.Ends t ↔ ∃ n, p.ancestor? n t = none := by
  constructor
  · rintro ⟨root, hroot, hnone⟩
    obtain ⟨k, hk⟩ := reaches_iff.mp hroot
    exact ⟨k + 1, by rw [ancestor?_succ, hk, Option.bind_some, hnone]⟩
  · rintro ⟨n, hn⟩
    induction n with
    | zero => simp [ancestor?] at hn
    | succ n ih =>
      cases hroot : p.ancestor? n t with
      | none => exact ih hroot
      | some root =>
        rw [ancestor?_succ, hroot, Option.bind_some] at hn
        exact ⟨root, reaches_iff.mpr ⟨n, hroot⟩, hn⟩

theorem ends_of_size_le (ht : p.types.size ≤ t) : p.Ends t := by
  refine ⟨t, .refl, ?_⟩
  simp [baseOf, ht]

/-- A chain ends, or it runs into a cycle. -/
theorem BasesExist.ends_iff_not_meetsCycle (hp : p.BasesExist) : p.Ends t ↔ ¬ p.MeetsCycle t := by
  constructor
  · rintro hends ⟨u, hu, hcycle⟩
    obtain ⟨n, hn⟩ := ends_iff.mp hends
    obtain ⟨i, hi⟩ := reaches_iff.mp hu
    obtain ⟨k, hk⟩ := derives_iff.mp hcycle
    have hmore : (p.ancestor? (i + n) t).isSome = true := by
      rw [ancestor?_add, hi, Option.bind_some]
      exact ancestor?_isSome_of_cycle hk n
    have hsome := ancestor?_isSome_of_le (Nat.le_add_left n i) hmore
    simp [hn] at hsome
  · intro hfree
    rcases Nat.lt_or_ge t p.types.size with ht | ht
    · refine ends_iff.mpr ⟨p.types.size, ?_⟩
      by_contra hlong
      obtain ⟨i, k, u, hu, hcycle⟩ := hp.exists_cycle ht (Option.isSome_iff_ne_none.mpr hlong)
      exact hfree ⟨u, reaches_iff.mpr ⟨i, hu⟩, derives_iff.mpr ⟨k, hcycle⟩⟩
    · exact ends_of_size_le ht

theorem BasesExist.ends_iff_chainEnds (hp : p.BasesExist) (ht : t < p.types.size) :
    p.Ends t ↔ p.chainEnds t = true := by
  rw [hp.chainEnds_iff ht, ends_iff]

/-- A walk that may look at as many types as there are leaves out nothing. -/
theorem BasesExist.mem_climb_iff (hp : p.BasesExist) {n : Nat} (hn : p.types.size ≤ n) :
    t ∈ p.climb n s ↔ s < p.types.size ∧ Relation.ReflTransGen p.BaseLink s t := by
  rw [mem_climb, reaches_iff]
  constructor
  · rintro ⟨ht, k, -, hk⟩
    refine ⟨?_, k, hk⟩
    cases k with
    | zero => exact Option.some.inj hk ▸ ht
    | succ k => exact lt_of_ancestor?_succ hk
  · rintro ⟨hs, k, hk⟩
    obtain ⟨j, hj, hanc⟩ := hp.exists_steps_lt hs hk
    exact ⟨hp.ancestor?_lt hs hk, j, Nat.lt_of_lt_of_le hj hn, hanc⟩

end Program

namespace Hierarchy

variable {p : Program} {s t u : TypeId}

/-! ### Lists of subtypes -/

/-- The subtypes of a type are its derived types, each followed by its own subtypes. -/
theorem subtypesOf_eq_flatMap (hp : p.BasesExist) (ht : t < p.types.size) (hends : p.chainEnds t = true) :
    (ofProgram p).subtypesOf t = (p.derivedOf t).flatMap fun u => u :: (ofProgram p).subtypesOf u := by
  simp only [subtypesOf_eq_descent hp]
  exact hp.descent_eq_flatMap ht hends

/-- No type is listed twice, or among its own subtypes. -/
theorem nodup_cons_subtypesOf (hp : p.BasesExist) (t : TypeId) : (t :: (ofProgram p).subtypesOf t).Nodup := by
  rw [subtypesOf_eq_descent hp]
  exact hp.nodup_cons_descent t

/-- A type that is listed is followed by its own subtypes, without a gap. -/
theorem infix_of_mem_subtypesOf (hp : p.BasesExist) (hs : s ∈ (ofProgram p).subtypesOf t) :
    s :: (ofProgram p).subtypesOf s <:+: (ofProgram p).subtypesOf t := by
  obtain ⟨hends, k, hk⟩ := (mem_subtypesOf_iff hp).mp hs
  have hstep : ∀ {u v : TypeId}, p.baseOf u = some v → p.chainEnds v = true →
      u :: (ofProgram p).subtypesOf u <:+: (ofProgram p).subtypesOf v := by
    intro u v huv hv
    rw [subtypesOf_eq_flatMap hp (hp u v huv) hv]
    exact List.infix_of_mem_flatten (List.mem_map_of_mem (Program.mem_derivedOf.mpr huv))
  clear hs
  induction k generalizing s with
  | zero =>
    rw [Program.ancestor?_one] at hk
    exact hstep hk hends
  | succ k ih =>
    obtain ⟨b, hb, hk⟩ := Option.bind_eq_some_iff.mp hk
    have hends' := hp.chainEnds_of_ancestor? (Program.lt_of_ancestor?_succ hk) hk hends
    exact (hstep hb hends').trans ((List.infix_cons (List.infix_refl _)).trans (ih hk))

/-! ### All types in one line -/

/-- The types without a base type come in the order of their numbers, each followed by its subtypes. -/
theorem line_eq_flatMap (hp : p.BasesExist) : (ofProgram p).line.toList =
    ((List.range p.types.size).filter fun t => p.baseOf t == none).flatMap fun t =>
      t :: (ofProgram p).subtypesOf t := by
  simp only [line_eq_lineage hp, subtypesOf_eq_descent hp]
  rfl

/-- No type stands in the line twice. -/
theorem nodup_line (hp : p.BasesExist) : ((ofProgram p).line.toList).Nodup := by
  rw [line_eq_lineage hp]
  exact hp.nodup_lineage

theorem mem_line_iff (hp : p.BasesExist) : t ∈ (ofProgram p).line.toList ↔ t < p.types.size ∧ p.Ends t := by
  rw [line_eq_lineage hp, hp.mem_lineage]
  exact and_congr_right fun ht => (hp.ends_iff_chainEnds ht).symm

/-- Every type whose chain ends stands in the line and is followed by its subtypes, without a gap. -/
theorem cons_subtypesOf_in_line (hp : p.BasesExist) (ht : t < p.types.size) (hends : p.Ends t) :
    t :: (ofProgram p).subtypesOf t <:+: (ofProgram p).line.toList := by
  obtain ⟨root, hreach, hroot⟩ := hends
  obtain ⟨k, hk⟩ := Program.reaches_iff.mp hreach
  have hlt := hp.ancestor?_lt ht hk
  have hfirst : root :: (ofProgram p).subtypesOf root <:+: (ofProgram p).line.toList := by
    rw [line_eq_flatMap hp]
    refine List.infix_of_mem_flatten (List.mem_map.mpr ⟨root, ?_, rfl⟩)
    exact List.mem_filter.mpr ⟨List.mem_range.mpr hlt, beq_iff_eq.mpr hroot⟩
  cases k with
  | zero => exact Option.some.inj hk ▸ hfirst
  | succ k =>
    have hmem := (mem_subtypesOf_iff hp).mpr ⟨hp.chainEnds_of_root hlt hroot, k, hk⟩
    exact (infix_of_mem_subtypesOf hp hmem).trans ((List.infix_cons (List.infix_refl _)).trans hfirst)

/-! ### The exact relation -/

theorem mem_subtypesOf_iff_derives (hp : p.BasesExist) :
    s ∈ (ofProgram p).subtypesOf t ↔ p.Derives s t ∧ p.Ends t := by
  rw [mem_subtypesOf_iff hp, ← Program.derives_iff, and_comm]
  refine and_congr_right fun hs => ?_
  obtain ⟨k, hk⟩ := Program.derives_iff.mp hs
  exact (hp.ends_iff_chainEnds (hp.ancestor?_lt (Program.lt_of_ancestor?_succ hk) hk)).symm

/-- An ancestor that is listed comes first. -/
theorem ancestor_before (hp : p.BasesExist) (hu : u ∈ (ofProgram p).subtypesOf t) (hs : p.Derives s u) :
    [u, s].Sublist ((ofProgram p).subtypesOf t) := by
  have hmem : s ∈ (ofProgram p).subtypesOf u :=
    (mem_subtypesOf_iff hp).mpr ⟨chainEnds_of_mem_subtypesOf hp hu, Program.derives_iff.mp hs⟩
  exact ((List.singleton_sublist.mpr hmem).cons_cons u).trans (infix_of_mem_subtypesOf hp hu).sublist

/-- The subtypes of a type are the types that derive from it, if its chain ends; below a cycle and beyond the last type
    there are none. They are listed once each and after their ancestors. All lists of subtypes are stretches of one line
    of the types whose chains end: there every type is followed by its subtypes. -/
theorem subtypesOf_exact (p : Program) (hp : p.Finalized) (t : TypeId) :
    let line := (ofProgram p).line.toList
    let subtypes := (ofProgram p).subtypesOf t
    (∀ s, s ∈ subtypes ↔ p.Derives s t ∧ p.Ends t) ∧ (p.Ends t ↔ ¬ p.MeetsCycle t) ∧
    subtypes.Nodup ∧ t ∉ subtypes ∧
    (∀ s ∈ subtypes, ∀ u ∈ subtypes, p.Derives s u → [u, s].Sublist subtypes) ∧
    (p.MeetsCycle t → subtypes = []) ∧ (p.types.size ≤ t → subtypes = []) ∧
    line.Nodup ∧ (t ∈ line ↔ t < p.types.size ∧ p.Ends t) ∧ (t ∈ line → t :: subtypes <:+: line) := by
  intro line subtypes
  have hbases := hp.basesExist
  have hiff : ∀ s, s ∈ subtypes ↔ p.Derives s t ∧ p.Ends t := fun s => mem_subtypesOf_iff_derives hbases
  have hcycle : p.Ends t ↔ ¬ p.MeetsCycle t := hbases.ends_iff_not_meetsCycle
  obtain ⟨hself, honce⟩ := List.nodup_cons.mp (nodup_cons_subtypesOf hbases t)
  refine ⟨hiff, hcycle, honce, hself, fun s _ u hu hs => ancestor_before hbases hu hs, ?_, ?_, nodup_line hbases,
    mem_line_iff hbases, fun ht => ?_⟩
  · intro hmeets
    exact List.eq_nil_iff_forall_not_mem.mpr fun s hs => hcycle.mp ((hiff s).mp hs).2 hmeets
  · intro ht
    refine List.eq_nil_iff_forall_not_mem.mpr fun s hs => ?_
    exact absurd (mem_subtypesOf.mp hs).1 (Nat.not_lt.mpr ht)
  · obtain ⟨hlt, hends⟩ := (mem_line_iff hbases).mp ht
    exact cons_subtypesOf_in_line hbases hlt hends

/-- A tree of types, in which a base type is declared after a type derived from it, and two types that derive from each
    other, with a type below them. -/
def family : List Program.Edit := [
  .addModule "App.dll",
  .addType 0 { name := "Cat", baseName := "Animal" } none,
  .addType 0 { name := "Animal" } none,
  .addType 0 { name := "Kitten", baseName := "Cat" } none,
  .addType 0 { name := "Dog", baseName := "Animal" } none,
  .addType 0 { name := "Egg", baseName := "Hen" } none,
  .addType 0 { name := "Hen", baseName := "Egg" } none,
  .addType 0 { name := "Chick", baseName := "Egg" } none]

theorem subtypesOf_exact_family :
    let p := (family.foldl Program.edit {}).finalize
    p.Finalized ∧ (ofProgram p).subtypesOf 1 = [0, 2, 3] ∧ (ofProgram p).line.toList = [1, 0, 2, 3] ∧
    (∀ s, s ∈ [0, 2, 3] ↔ p.Derives s 1 ∧ p.Ends 1) ∧ [0, 2].Sublist [0, 2, 3] ∧
    p.MeetsCycle 6 ∧ p.Derives 6 4 ∧ (ofProgram p).subtypesOf 4 = [] ∧ (ofProgram p).subtypesOf 7 = [] := by
  intro p
  have hfinal : p.Finalized := ⟨family, by decide +kernel, rfl⟩
  have hlist : (ofProgram p).subtypesOf 1 = [0, 2, 3] := by decide +kernel
  have hloop : p.Derives 4 4 := Program.derives_iff.mpr ⟨1, by decide +kernel⟩
  have hbelow : p.Derives 6 4 := Program.derives_iff.mpr ⟨0, by decide +kernel⟩
  have hkitten : p.Derives 2 0 := Program.derives_iff.mpr ⟨0, by decide +kernel⟩
  obtain ⟨hiff, -, -, -, horder, -⟩ := subtypesOf_exact p hfinal 1
  obtain ⟨-, -, -, -, -, hcycle, -⟩ := subtypesOf_exact p hfinal 4
  obtain ⟨-, -, -, -, -, -, hbeyond, -⟩ := subtypesOf_exact p hfinal 7
  rw [hlist] at hiff horder
  exact ⟨hfinal, hlist, by decide +kernel, hiff, horder 2 (by decide) 0 (by decide) hkitten,
    ⟨4, hbelow.to_reflTransGen, hloop⟩, hbelow, hcycle ⟨4, .refl, hloop⟩, hbeyond (by decide +kernel)⟩

end Hierarchy

end CallGraphs
