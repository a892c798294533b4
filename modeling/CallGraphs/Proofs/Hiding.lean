import CallGraphs.Proofs.Receivers

/-! Hiding and overriding. A virtual method that opens a new slot hides the method of a base type, and a method
    further down that has the same signature overrides the new slot. Resolution judges each type alone. A method that
    opens a new slot is no candidate for a call of the hidden method. But a method below it is one, although it
    overrides the other slot (`not_hidingCuts_robots`). Whether a method of a subtype is a candidate depends on that
    subtype and on the receivers below it, and on nothing that the types above it declare
    (`candidates_declared_below`). -/

namespace CallGraphs

namespace Dispatch

variable {p : Program} {target c : MethodId} {m d : MethodDef} {r x t : TypeId} {live : LiveTypes}

/-- The nearest override on the chain of `r` is `c`, which is a method of `x`. -/
def NearestOverride (p : Program) (m : MethodDef) (r x : TypeId) (c : MethodId) : Prop :=
  ∃ front back, p.chain r = front ++ x :: back ∧ p.override? m x = some c ∧ ∀ y ∈ front, p.override? m y = none

/-- The method `c` is declared by a subtype of the class that declares the virtual method `target`. -/
structure DeclaredBelow (p : Program) (target : MethodId) (m : MethodDef) (c : MethodId) (d : MethodDef) : Prop where
  isTarget : p.methods[target]? = some m
  isVirtual : m.isVirtual = true
  isClass : p.isInterface m.owner = false
  isMethod : p.methods[c]? = some d
  below : d.owner ∈ (Hierarchy.ofProgram p).subtypesOf m.owner

/-! ### The way up to a subtype -/

/-- On the way up to a subtype, the chain does not meet the type itself. -/
theorem not_mem_front {front back : List TypeId} (hx : x ∈ (Hierarchy.ofProgram p).subtypesOf t)
    (hchain : p.chain r = front ++ x :: back) (hfront : x ∉ front) : t ∉ front := by
  intro ht
  obtain ⟨-, hends, i, -, hup⟩ := Hierarchy.mem_subtypesOf.mp hx
  have hbelow : (p.chain r).takeWhile (· != x) = front := by
    rw [hchain, List.takeWhile_append_of_pos]
    · simp
    · intro y hy
      simpa using ne_of_mem_of_not_mem hy hfront
  have hmem : x ∈ p.chain r := by simp [hchain]
  obtain ⟨-, k, hanc⟩ := Program.exists_ancestor?_of_mem_chain hmem
  rw [← hbelow] at ht
  cases k with
  | zero =>
    obtain rfl : r = x := Option.some.inj hanc
    simp [Program.chain, Program.takeWhile_climb_self] at ht
  | succ k =>
    -- below `x` everything reaches `x`, and from there it would come back to `t`
    obtain ⟨j, -, hdown⟩ := Program.ancestor?_of_mem_takeWhile _ hanc ht
    refine Program.not_cycle_of_chainEnds (k := j + 1 + i) hends ?_
    rw [Nat.add_assoc, Program.ancestor?_add, hdown, Option.bind_some, hup]

/-- A type that has an override is the first on its own chain. -/
theorem nearestOverride_self (hx : x < p.types.size) (hover : p.override? m x = some c) :
    NearestOverride p m x x c := by
  refine ⟨[], (p.chain x).tail, ?_, hover, by simp⟩
  simp [Program.chain, Program.climb, hx]

/-- A type whose chain leads to a subtype is a subtype too. -/
theorem NearestOverride.mem_subtypesOf (hp : p.BasesExist) (h : NearestOverride p m r x c)
    (hx : x ∈ (Hierarchy.ofProgram p).subtypesOf t) : r ∈ (Hierarchy.ofProgram p).subtypesOf t := by
  obtain ⟨front, back, hchain, -, -⟩ := h
  have hmem : x ∈ p.chain r := by simp [hchain]
  rcases Hierarchy.eq_or_mem_subtypesOf hp hmem (Hierarchy.chainEnds_of_mem_subtypesOf hp hx) with rfl | hr
  · exact hx
  · exact Hierarchy.subtypesOf_trans hp hr hx

namespace DeclaredBelow

/-! ### What a receiver runs -/

theorem ne_target (h : DeclaredBelow p target m c d) : c ≠ target := by
  rintro rfl
  have howner := ne_of_mem_subtypesOf h.below
  rw [Option.some.inj (h.isMethod.symm.trans h.isTarget)] at howner
  exact howner rfl

/-- A receiver runs the method exactly if it is the nearest override on the chain of the receiver. -/
theorem runOn_iff (h : DeclaredBelow p target m c d) (hp : p.WellFormed) :
    runOn p target m r = some c ↔ NearestOverride p m r d.owner c := by
  rw [runOn, h.isClass, if_neg Bool.false_ne_true]
  constructor
  · intro hrun
    rcases runOnClass_eq_some hrun with ⟨front, y, back, hbelow, hover, hnone⟩ | ⟨hself, -⟩
    · obtain rfl := hp.eq_of_firstMethod? h.isMethod hover
      refine ⟨front, back ++ (p.chain r).dropWhile (· != m.owner), ?_, hover, hnone⟩
      rw [← List.cons_append, ← List.append_assoc, ← hbelow, List.takeWhile_append_dropWhile]
    · exact absurd hself h.ne_target
  · rintro ⟨front, back, hchain, hover, hnone⟩
    have hfront : d.owner ∉ front := fun hmem => by simp [hnone _ hmem] at hover
    have howner := not_mem_front h.below hchain hfront
    have hbelow : (p.chain r).takeWhile (· != m.owner) =
        front ++ d.owner :: back.takeWhile (· != m.owner) := by
      rw [hchain, List.takeWhile_append_of_pos, List.takeWhile_cons_of_pos]
      · simpa using ne_of_mem_subtypesOf h.below
      · intro y hy
        simpa using ne_of_mem_of_not_mem hy howner
    rw [runOnClass, List.findSome?_eq_some_iff.mpr ⟨front, d.owner, _, hbelow, hover, hnone⟩]

/-! ### When the method is a candidate -/

variable {a : Algorithm}

theorem mem_byHierarchy_iff (h : DeclaredBelow p target m c d) (hp : p.WellFormed) :
    c ∈ (ofProgram p a).byHierarchy target ↔ p.override? m d.owner = some c := by
  rw [mem_byHierarchy]
  constructor
  · rintro ⟨m', hm', hself | hbelow⟩
    · exact absurd (eq_target_of_mem_declaredCandidate hself) h.ne_target
    · obtain rfl : m' = m := Option.some.inj (hm'.symm.trans h.isTarget)
      rcases mem_replacements.mp hbelow with ⟨hface, -⟩ | ⟨-, -, y, -, hover⟩
      · exact absurd (hface.symm.trans h.isClass) (by decide)
      · obtain rfl := hp.eq_of_firstMethod? h.isMethod hover
        exact hover
  · intro hover
    exact ⟨m, h.isTarget, .inr (mem_replacements.mpr (.inr ⟨h.isClass, h.isVirtual, d.owner, h.below, hover⟩))⟩

theorem isOpen (h : DeclaredBelow p target m c d) : Dispatch.isOpen p m = true := by
  simp [Dispatch.isOpen, h.isVirtual]

theorem mem_receiverTypes (h : DeclaredBelow p target m c d)
    (hr : r ∈ (Hierarchy.ofProgram p).subtypesOf m.owner) : r ∈ (ofProgram p a).receiverTypes m := by
  simp only [receiverTypes, ofProgram, h.isClass, Bool.false_eq_true, if_false]
  exact List.mem_cons_of_mem _ hr

theorem mem_byLive_iff (h : DeclaredBelow p target m c d) (hp : p.Finalized) :
    c ∈ (ofProgram p a).byLive live target ↔ ∃ r ∈ live, NearestOverride p m r d.owner c := by
  rw [mem_byLive_of_isOpen (d := ofProgram p a) h.isTarget h.isOpen]
  constructor
  · rintro ⟨r, -, hlive, hrun⟩
    exact ⟨r, hlive, (h.runOn_iff hp.wellFormed).mp hrun⟩
  · rintro ⟨r, hlive, hnearest⟩
    exact ⟨r, h.mem_receiverTypes (hnearest.mem_subtypesOf hp.basesExist h.below), hlive,
      (h.runOn_iff hp.wellFormed).mpr hnearest⟩

/-- With an override of its own, a receiver of the subtype runs nothing else. -/
theorem mem_byLive_owner_iff (h : DeclaredBelow p target m c d) (hp : p.Finalized)
    (hover : p.override? m d.owner = some c) (o : MethodId) :
    o ∈ (ofProgram p a).byLive [d.owner] target ↔ o = c := by
  have hlt : d.owner < p.types.size := hp.wellFormed.owner c d.owner (by simp [Program.ownerOf?, h.isMethod])
  have hrun : runOn p target m d.owner = some c :=
    (h.runOn_iff hp.wellFormed).mpr (nearestOverride_self hlt hover)
  rw [mem_byLive_singleton (d := ofProgram p a) h.isTarget h.isOpen]
  constructor
  · rintro ⟨-, ho⟩
    exact Option.some.inj (ho.symm.trans hrun)
  · rintro rfl
    exact ⟨h.mem_receiverTypes h.below, hrun⟩

/-- An override opens no slot of its own. -/
theorem isNewSlot_eq_false (h : DeclaredBelow p target m c d) (hp : p.WellFormed)
    (hover : p.override? m d.owner = some c) : d.isNewSlot = false := by
  obtain ⟨x, hx, -, -, hslot⟩ := hp.owner_of_override? hover
  rwa [Option.some.inj (h.isMethod.symm.trans hx)]

end DeclaredBelow

/-- A method that a subtype of the declaring class declares, as a candidate of a call through the class. Class
    hierarchy analysis lists it exactly if it is the override of its type. Rapid type analysis lists it exactly if it
    is the nearest override on the chain of an instantiated type, and with an instance of the subtype alone it then
    lists nothing else. Neither lists a method that opens a new slot. What the types between the class and the
    subtype declare makes no difference. -/
theorem candidates_declared_below (p : Program) (hp : p.Finalized) (target : MethodId) (m : MethodDef)
    (c : MethodId) (d : MethodDef) (h : DeclaredBelow p target m c d) (live : LiveTypes) :
    let cha := (ofProgram p .cha).candidates live target
    let rta := fun live : LiveTypes => (ofProgram p .rta).candidates live target
    (c ∈ cha ↔ p.override? m d.owner = some c) ∧
    (c ∈ rta live ↔ ∃ r ∈ live, NearestOverride p m r d.owner c) ∧
    (p.override? m d.owner = some c → ∀ o, o ∈ rta [d.owner] ↔ o = c) ∧
    (d.isNewSlot = true → c ∉ cha ∧ c ∉ rta live) := by
  intro cha rta
  have hcha : c ∈ cha ↔ p.override? m d.owner = some c := h.mem_byHierarchy_iff hp.wellFormed
  have hrta : c ∈ rta live ↔ ∃ r ∈ live, NearestOverride p m r d.owner c := h.mem_byLive_iff hp
  refine ⟨hcha, hrta, h.mem_byLive_owner_iff hp, fun hnew => ?_⟩
  have hno : p.override? m d.owner ≠ some c := by
    intro hover
    simp [h.isNewSlot_eq_false hp.wellFormed hover] at hnew
  refine ⟨fun hin => hno (hcha.mp hin), fun hin => ?_⟩
  obtain ⟨r, -, front, back, -, hover, -⟩ := hrta.mp hin
  exact hno hover

/-! ### Methods below a hiding one -/

/-- The type declares a virtual method with the signature of `m` that opens a slot of its own. -/
def Hides (p : Program) (m : MethodDef) (b : TypeId) : Prop :=
  ∃ s ∈ p.methods.toList, s.owner = b ∧ s.isVirtual = true ∧ s.isNewSlot = true ∧ p.fits s m = true

/-- Hiding cuts overriding: where a type `b` between the declaring class and its subtype hides the method of the
    class, no method of the subtype, override bindings apart, is a candidate of a call through the class. -/
def HidingCuts (p : Program) : Prop :=
  ∀ target m b c d live, DeclaredBelow p target m c d → d.overrides = [] →
    b ∈ (Hierarchy.ofProgram p).subtypesOf m.owner → d.owner ∈ (Hierarchy.ofProgram p).subtypesOf b → Hides p m b →
    c ∉ (ofProgram p .cha).candidates live target ∧ c ∉ (ofProgram p .rta).candidates live target

/-- A class, a derived class that hides its method, and a third one that overrides the method of the second. -/
def robots : List Program.Edit := [
  .addModule "App.dll",
  .addType 0 { name := "Animal", ns := "App" } none,
  .addType 0 { name := "Robot", ns := "App", baseName := "App.Animal" } none,
  .addType 0 { name := "Android", ns := "App", baseName := "App.Robot" } none,
  .addMethod 0 { name := "Speak", isVirtual := true, isNewSlot := true, body := some [] },
  .addMethod 1 { name := "Speak", isVirtual := true, isNewSlot := true, body := some [] },
  .addMethod 2 { name := "Speak", isVirtual := true, body := some [] }]

/-- The method that all three declare. -/
def speak (owner : TypeId) (isNewSlot : Bool) (fullName : String) : MethodDef :=
  { name := "Speak", isVirtual := true, isNewSlot, body := some [], owner, fullName := some fullName }

theorem declaredBelow_robots : DeclaredBelow (robots.foldl Program.edit {}).finalize
    0 (speak 0 true "System.Void App.Animal::Speak()") 2 (speak 2 false "System.Void App.Android::Speak()") :=
  ⟨by decide +kernel, rfl, by decide +kernel, by decide +kernel, by decide +kernel⟩

theorem candidates_declared_below_robots :
    let p := (robots.foldl Program.edit {}).finalize
    let animal := speak 0 true "System.Void App.Animal::Speak()"
    let android := speak 2 false "System.Void App.Android::Speak()"
    let rta := fun live : LiveTypes => (ofProgram p .rta).candidates live 0
    p.Finalized ∧ DeclaredBelow p 0 animal 2 android ∧
    (2 ∈ (ofProgram p .cha).candidates [2] 0 ↔ p.override? animal 2 = some 2) ∧
    (2 ∈ rta [2] ↔ ∃ r ∈ [2], NearestOverride p animal r 2 2) ∧
    p.override? animal 2 = some 2 ∧ (∀ o, o ∈ rta [2] ↔ o = 2) := by
  intro p animal android rta
  have hfinal : p.Finalized := ⟨robots, by decide +kernel, rfl⟩
  have hover : p.override? animal 2 = some 2 := by decide +kernel
  obtain ⟨hcha, hrta, halone, -⟩ :=
    candidates_declared_below p hfinal 0 animal 2 android declaredBelow_robots [2]
  exact ⟨hfinal, declaredBelow_robots, hcha, hrta, hover, halone hover⟩

/-- On it hiding cuts nothing: a call of the first method may run the third one, and on an instance of the third class
    it runs nothing else. -/
theorem not_hidingCuts_robots :
    let p := (robots.foldl Program.edit {}).finalize
    p.Finalized ∧ ¬ HidingCuts p ∧ (ofProgram p .cha).candidates [2] 0 = [0, 2] ∧
    (ofProgram p .rta).candidates [2] 0 = [2] := by
  intro p
  refine ⟨⟨robots, by decide +kernel, rfl⟩, fun h => ?_, by decide +kernel, by decide +kernel⟩
  have hhides : Hides p (speak 0 true "System.Void App.Animal::Speak()") 1 :=
    ⟨speak 1 true "System.Void App.Robot::Speak()", by decide +kernel⟩
  have hcut := h 0 _ 1 2 _ [2] declaredBelow_robots rfl (by decide +kernel) (by decide +kernel) hhides
  exact absurd hcut.1 (by decide +kernel)

end Dispatch

end CallGraphs
