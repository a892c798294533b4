import CallGraphs.Program.Build
import CallGraphs.Proofs.Firsts
import CallGraphs.Proofs.Forest
import CallGraphs.Proofs.Subtypes

/-! Virtual calls through a class, resolved in two ways. Class hierarchy analysis looks into each subtype once,
    from the top down. Rapid type analysis climbs from each instantiated type to the nearest override. What a
    subtype inherits has been found already when its turn comes, because its base type comes first
    (`runOnClass_base`). So with all receivers instantiated both give the same candidates in the same order
    (`candidates_through_class`). -/

namespace CallGraphs

namespace Program

/-! ### Climbing to an ancestor -/

/-- Up to an ancestor, the length of the climb does not matter. -/
theorem takeWhile_climb {p : Program} {t : TypeId} : ∀ {k n n' : Nat} {s : TypeId},
    p.ancestor? k s = some t → k < n → k < n' →
      (p.climb n s).takeWhile (· != t) = (p.climb n' s).takeWhile (· != t)
  | 0, n, n', s, h, _, _ => by
      obtain rfl : s = t := Option.some.inj h
      rw [takeWhile_climb_self, takeWhile_climb_self]
  | k + 1, n + 1, n' + 1, s, h, hn, hn' => by
      obtain ⟨b, hb, hanc⟩ := Option.bind_eq_some_iff.mp h
      have htail := takeWhile_climb hanc (Nat.lt_of_succ_lt_succ hn) (Nat.lt_of_succ_lt_succ hn')
      rw [climb, climb, if_pos (baseOf_lt hb), if_pos (baseOf_lt hb), hb]
      simp only [List.takeWhile_cons, htail]

theorem mem_climb_of_ancestor? {p : Program} {t : TypeId} (ht : t < p.types.size) : ∀ {k n : Nat} {s : TypeId},
    p.ancestor? k s = some t → k < n → t ∈ p.climb n s
  | 0, n + 1, s, h, _ => by
      obtain rfl : s = t := Option.some.inj h
      simp [climb, ht]
  | k + 1, n + 1, s, h, hn => by
      obtain ⟨b, hb, hanc⟩ := Option.bind_eq_some_iff.mp h
      rw [climb, if_pos (baseOf_lt hb), hb]
      exact List.mem_cons_of_mem s (mem_climb_of_ancestor? ht hanc (Nat.lt_of_succ_lt_succ hn))

end Program

namespace Dispatch

variable {p : Program} {target : MethodId} {m : MethodDef}

/-! ### What runs on a receiver -/

theorem runOnClass_owner (howner : m.owner < p.types.size) :
    runOnClass p target m m.owner = if m.isAbstract then none else some target := by
  have hbelow : (p.chain m.owner).takeWhile (· != m.owner) = [] := Program.takeWhile_climb_self p m.owner _
  have hself : (p.chain m.owner).contains m.owner = true :=
    List.contains_iff_mem.mpr (Program.mem_climb_of_ancestor? howner (k := 0) rfl (Nat.zero_lt_succ _))
  rw [runOnClass, hbelow, hself]
  cases m.isAbstract <;> rfl

/-- A receiver below the declaring type runs its own override, else what its base type runs. -/
theorem runOnClass_base {s u : TypeId} {k : Nat} (howner : m.owner < p.types.size) (hbase : p.baseOf s = some u)
    (hanc : p.ancestor? k u = some m.owner) (hk : k < p.types.size) (hne : s ≠ m.owner) :
    runOnClass p target m s = (p.override? m s).or (runOnClass p target m u) := by
  have hchain : p.chain s = s :: p.climb p.types.size u := by
    rw [Program.chain, Program.climb, if_pos (Program.baseOf_lt hbase), hbase]
  have hbelow : (p.chain s).takeWhile (· != m.owner) = s :: (p.chain u).takeWhile (· != m.owner) := by
    rw [hchain, List.takeWhile_cons, if_pos (by simpa using hne), Program.chain,
      Program.takeWhile_climb hanc hk (Nat.lt_succ_of_lt hk)]
  have hs : (p.chain s).contains m.owner = true := by
    rw [hchain, List.contains_iff_mem]
    exact List.mem_cons_of_mem s (Program.mem_climb_of_ancestor? howner hanc hk)
  have hu : (p.chain u).contains m.owner = true :=
    List.contains_iff_mem.mpr (Program.mem_climb_of_ancestor? howner hanc (Nat.lt_succ_of_lt hk))
  rw [runOnClass, runOnClass, hbelow, hs, hu, List.findSome?_cons]
  cases p.override? m s <;> rfl

theorem ne_of_mem_subtypesOf {s t : TypeId} (h : s ∈ (Hierarchy.ofProgram p).subtypesOf t) : s ≠ t := by
  rintro rfl
  obtain ⟨-, hends, k, -, hanc⟩ := Hierarchy.mem_subtypesOf.mp h
  have hnone : p.ancestor? p.types.size s = none := Option.isNone_iff_eq_none.mp hends
  have hsome := Program.ancestor?_isSome_of_cycle hanc p.types.size
  simp [hnone] at hsome

/-! ### The same candidates in the same order -/

/-- Along a list of subtypes in which base types come first, the methods that run and the overrides have the same
    first occurrences: what is inherited is among the earlier ones. -/
theorem eraseDups_runs (howner : m.owner < p.types.size) : ∀ (l known acc : List Nat),
    Forest.TopDown p.derivedOf known l →
    (∀ s ∈ l, s ∈ (Hierarchy.ofProgram p).subtypesOf m.owner) →
    (∀ u ∈ known, ∀ c, runOnClass p target m u = some c → c ∈ acc) →
    (acc ++ l.filterMap (runOnClass p target m)).eraseDups = (acc ++ l.filterMap (p.override? m)).eraseDups
  | [], _, _, _, _, _ => rfl
  | s :: l, known, acc, ⟨⟨u, hu, hs⟩, htop⟩, hsub, hknown => by
      have hmem := hsub s List.mem_cons_self
      have hrest : ∀ x ∈ l, x ∈ (Hierarchy.ofProgram p).subtypesOf m.owner :=
        fun x hx => hsub x (List.mem_cons_of_mem s hx)
      have hbase : p.baseOf s = some u := Program.mem_derivedOf.mp hs
      obtain ⟨-, -, k, hk, hanc⟩ := Hierarchy.mem_subtypesOf.mp hmem
      rw [Program.ancestor?, hbase, Option.bind_some] at hanc
      have hrun : runOnClass p target m s = (p.override? m s).or (runOnClass p target m u) :=
        runOnClass_base howner hbase hanc hk (ne_of_mem_subtypesOf hmem)
      cases hover : p.override? m s with
      | some c =>
        -- the subtype has an override of its own, which both add
        rw [hover, Option.some_or] at hrun
        have hnext : ∀ v ∈ s :: known, ∀ d, runOnClass p target m v = some d → d ∈ acc ++ [c] := by
          intro v hv d hd
          rcases List.mem_cons.mp hv with rfl | hv
          · obtain rfl : c = d := Option.some.inj (hrun.symm.trans hd)
            exact List.mem_append_right acc List.mem_cons_self
          · exact List.mem_append_left [c] (hknown v hv d hd)
        rw [List.filterMap_cons_some hrun, List.filterMap_cons_some hover,
          List.append_cons acc c (l.filterMap (runOnClass p target m)),
          List.append_cons acc c (l.filterMap (p.override? m))]
        exact eraseDups_runs howner l (s :: known) (acc ++ [c]) htop hrest hnext
      | none =>
        -- it inherits what its base type runs, which is there already
        rw [hover, Option.none_or] at hrun
        have hnext : ∀ v ∈ s :: known, ∀ d, runOnClass p target m v = some d → d ∈ acc := by
          intro v hv d hd
          rcases List.mem_cons.mp hv with rfl | hv
          · exact hknown u hu d (hrun.symm.trans hd)
          · exact hknown v hv d hd
        rw [List.filterMap_cons_none hover, ← eraseDups_runs howner l (s :: known) acc htop hrest hnext]
        cases hinherited : runOnClass p target m u with
        | none => rw [List.filterMap_cons_none (hrun.trans hinherited)]
        | some c =>
          rw [List.filterMap_cons_some (hrun.trans hinherited)]
          exact Firsts.eraseDups_append_cons (hknown u hu c hinherited) _

theorem subtypesOf_topDown (p : Program) (t : TypeId) :
    Forest.TopDown p.derivedOf [t] ((Hierarchy.ofProgram p).subtypesOf t) := by
  have hsub : ∀ u, p.clipped.derivedOf u ⊆ p.derivedOf u := by
    intro u s hs
    rw [Program.mem_derivedOf, p.baseOf_clipped] at hs
    exact Program.mem_derivedOf.mpr (TypeGraph.linkOf?_eq_some.mp hs).1
  rw [Hierarchy.subtypesOf_eq_descent_clipped, Program.descent]
  split
  · exact (Forest.below_topDown _ t _).mono_kids hsub
  · trivial

/-- With all receivers instantiated, the methods that run and the methods that are declared are first met in the
    same order. -/
theorem eraseDups_runs_receivers (howner : m.owner < p.types.size) (hclass : p.isInterface m.owner = false) :
    ((m.owner :: (Hierarchy.ofProgram p).subtypesOf m.owner).filterMap (runOnClass p target m)).eraseDups =
      (declaredCandidate p target m ++
        ((Hierarchy.ofProgram p).subtypesOf m.owner).filterMap (p.override? m)).eraseDups := by
  have hown : declaredCandidate p target m = (runOnClass p target m m.owner).toList := by
    rw [runOnClass_owner howner, declaredCandidate, hclass]
    cases m.isAbstract <;> rfl
  have hsplit : (m.owner :: (Hierarchy.ofProgram p).subtypesOf m.owner).filterMap (runOnClass p target m) =
      declaredCandidate p target m ++
        ((Hierarchy.ofProgram p).subtypesOf m.owner).filterMap (runOnClass p target m) := by
    rw [hown, List.filterMap_cons]
    cases runOnClass p target m m.owner <;> rfl
  rw [hsplit]
  refine eraseDups_runs howner _ [m.owner] _ (subtypesOf_topDown p m.owner) (fun _ hs => hs) ?_
  intro u hu c hc
  rw [List.mem_singleton.mp hu] at hc
  simp [hown, hc]

/-- With the declaring class and all its subtypes instantiated, both ways find the same. -/
theorem byLive_eq_byHierarchy {a b : Algorithm} {live : LiveTypes} (hm : p.methods[target]? = some m)
    (howner : m.owner < p.types.size) (hclass : p.isInterface m.owner = false)
    (hlive : ∀ t ∈ m.owner :: (Hierarchy.ofProgram p).subtypesOf m.owner, t ∈ live) :
    (ofProgram p a).byLive live target = (ofProgram p b).byHierarchy target := by
  have hgate : (ofProgram p a).isGated live m = false := by
    have hopen : (ofProgram p a).isLive live m.owner = true := isLive_iff.mpr (.inl (hlive _ List.mem_cons_self))
    rw [isGated, hopen, Bool.not_true, Bool.and_false]
  have hall : (ofProgram p a).receivers live m = m.owner :: (Hierarchy.ofProgram p).subtypesOf m.owner := by
    have hkeep : ∀ t ∈ m.owner :: (Hierarchy.ofProgram p).subtypesOf m.owner, live.contains t = true :=
      fun t ht => List.contains_iff_mem.mpr (hlive t ht)
    simp only [receivers, ofProgram, hclass, Bool.false_eq_true, if_false]
    exact List.filter_eq_self.mpr hkeep
  have hlookup : (ofProgram p a).program.methods[target]? = some m ∧
      (ofProgram p b).program.methods[target]? = some m := ⟨hm, hm⟩
  rw [byLive, byHierarchy, hlookup.1, hlookup.2]
  simp only [hgate, Bool.false_eq_true, if_false, liveRuns, replacements, hall]
  simp only [ofProgram, hclass, Bool.false_eq_true, if_false]
  cases hvirtual : m.isVirtual with
  | true => exact eraseDups_runs_receivers howner hclass
  | false => cases hconcrete : m.isAbstract <;> simp [declaredCandidate, hclass, hconcrete]

/-- A call through a class. Whatever types are instantiated, rapid type analysis lists no method that class
    hierarchy analysis does not list. If the declaring class and all its subtypes are instantiated, both list the
    same methods in the same order. -/
theorem candidates_through_class (p : Program) (target : MethodId) (m : MethodDef) (ty : TypeDef)
    (live : LiveTypes) (hm : p.methods[target]? = some m) (hty : p.types[m.owner]? = some ty)
    (hclass : ty.isInterface = false) :
    let rta := (ofProgram p .rta).candidates live target
    let cha := (ofProgram p .cha).candidates live target
    rta ⊆ cha ∧
    ((m.owner ∈ live ∧ ∀ t ∈ (Hierarchy.ofProgram p).subtypesOf m.owner, t ∈ live) → rta = cha) := by
  have hnot : p.isInterface m.owner = false := by simp [Program.isInterface, hty, hclass]
  have howner : m.owner < p.types.size := (Array.getElem?_eq_some_iff.mp hty).1
  refine ⟨byLive_subset_byHierarchy hm hnot, fun ⟨hself, hsub⟩ => ?_⟩
  exact byLive_eq_byHierarchy hm howner hnot (List.forall_mem_cons.mpr ⟨hself, hsub⟩)

/-- A class whose method is overridden below, inherited further down, and hidden by a sibling. -/
def shapes : Program := Program.finalize {
  modules := #[{ name := "App.dll", types := [0, 1, 2, 3] }]
  types := #[
    { name := "Shape", fullName := "Shape", moduleId := 0, methods := [0] },
    { name := "Box", fullName := "Box", moduleId := 0, baseName := "Shape", methods := [1] },
    { name := "Blob", fullName := "Blob", moduleId := 0, baseName := "Shape", methods := [2] },
    { name := "Cube", fullName := "Cube", moduleId := 0, baseName := "Box" }]
  methods := #[
    { name := "Draw", owner := 0, isVirtual := true, body := some [] },
    { name := "Draw", owner := 1, isVirtual := true, body := some [] },
    { name := "Draw", owner := 2, isVirtual := true, isNewSlot := true, body := some [] }] }

theorem candidates_through_class_shapes :
    let draw : MethodDef :=
      { name := "Draw", owner := 0, isVirtual := true, body := some [], fullName := some "System.Void Shape::Draw()" }
    let shape : TypeDef := { name := "Shape", fullName := "Shape", moduleId := 0, methods := [0] }
    let rta := (ofProgram shapes .rta).candidates
    let cha := (ofProgram shapes .cha).candidates
    shapes.methods[0]? = some draw ∧ shapes.types[draw.owner]? = some shape ∧ shape.isInterface = false ∧
    rta [3, 2] 0 ⊆ cha [3, 2] 0 ∧ rta [3, 2] 0 = [1, 0] ∧
    (draw.owner ∈ [3, 0, 2, 1] ∧ ∀ t ∈ (Hierarchy.ofProgram shapes).subtypesOf draw.owner, t ∈ [3, 0, 2, 1]) ∧
    rta [3, 0, 2, 1] 0 = cha [3, 0, 2, 1] 0 ∧ cha [3, 0, 2, 1] 0 = [0, 1] := by
  intro draw shape rta cha
  have hmethod : shapes.methods[0]? = some draw := by decide +kernel
  have htype : shapes.types[draw.owner]? = some shape := by decide +kernel
  have hall : draw.owner ∈ [3, 0, 2, 1] ∧
      ∀ t ∈ (Hierarchy.ofProgram shapes).subtypesOf draw.owner, t ∈ [3, 0, 2, 1] := by
    decide +kernel
  refine ⟨hmethod, htype, rfl, ?_, by decide +kernel, hall, ?_, by decide +kernel⟩
  · exact (candidates_through_class shapes 0 draw shape [3, 2] hmethod htype rfl).1
  · exact (candidates_through_class shapes 0 draw shape [3, 0, 2, 1] hmethod htype rfl).2 hall

end Dispatch

end CallGraphs
