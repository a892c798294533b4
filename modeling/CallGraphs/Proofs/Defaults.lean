import CallGraphs.Proofs.Implementers
import CallGraphs.Proofs.Receivers

/-! Default methods of interfaces that extend the declaring one. A class may have no implementation of its own, nor
    inherit one, and still be provided with one by an interface that it implements. Class hierarchy analysis lists
    the method of that interface, because the interface is an implementer too. Rapid type analysis climbs base types
    and falls back on the declaring interface: it lists the method only if an instantiated type has the interface on
    its chain of base types, and the class itself brings at most the target (`candidates_provided`). -/

namespace CallGraphs

namespace Dispatch

variable {p : Program} {target c : MethodId} {m : MethodDef} {r x : TypeId} {live : LiveTypes}

/-- The class `r` implements the interface that declares `target`, and nothing on its chain implements the method. Of
    the interfaces in between only `x` does, by its method `c`. -/
structure Provided (p : Program) (target : MethodId) (m : MethodDef) (r x : TypeId) (c : MethodId) : Prop where
  receiver : r ∈ (Hierarchy.ofProgram p).implementersOf m.owner
  receiver_class : p.isInterface r = false
  bare : ∀ t ∈ p.chain r, p.implementation? target m t = none
  provider_interface : p.isInterface x = true
  provider : x ∈ (Hierarchy.ofProgram p).implementersOf m.owner
  implemented : r ∈ (Hierarchy.ofProgram p).implementersOf x
  provides : p.implementation? target m x = some c
  only : ∀ y, p.isInterface y = true → y ∈ (Hierarchy.ofProgram p).implementersOf m.owner →
    r ∈ (Hierarchy.ofProgram p).implementersOf y → (p.implementation? target m y).isSome = true → y = x

/-! ### Methods that implementers declare -/

/-- A method of an implementer is not the target, which the interface itself declares. -/
theorem ne_target_of_implementation? (h : p.WellFormed) (hm : p.methods[target]? = some m)
    (hx : x ∈ (Hierarchy.ofProgram p).implementersOf m.owner) (hc : p.implementation? target m x = some c) :
    c ≠ target := by
  rintro rfl
  exact Hierarchy.ne_of_mem_implementersOf hx (h.eq_of_firstMethod? hm hc)

/-- A receiver runs the method of an implementer exactly if it inherits it along base types. -/
theorem runOnInterface_eq_iff (h : p.WellFormed) (hc : p.implementation? target m x = some c) (hne : c ≠ target) :
    runOnInterface p target m r = some c ↔ Inherits p target m r x c := by
  refine ⟨fun hrun => ?_, Inherits.runOnInterface⟩
  rcases runOnInterface_eq_some hrun with ⟨b, front, back, hchain, hb, hfront⟩ | ⟨rfl, -⟩
  · obtain ⟨d, hd, rfl, -⟩ := h.owner_of_implementation? hc
    obtain rfl := h.eq_of_firstMethod? hd hb
    exact ⟨front, back, hchain, hb, hfront⟩
  · exact absurd rfl hne

/-- A receiver with nothing on its chain runs the default method of the declaring interface, if there is one. -/
theorem runOnInterface_of_bare (hbare : ∀ t ∈ p.chain r, p.implementation? target m t = none) :
    runOnInterface p target m r = some c ↔ c = target ∧ m.hasBody = true ∧ m.isAbstract = false := by
  rw [runOnInterface, List.findSome?_eq_none_iff.mpr hbare]
  cases m.hasBody <;> cases m.isAbstract <;> simp [@eq_comm _ target c]

/-- A class is provided with a method by an interface that extends the declaring one. Class hierarchy analysis lists
    the method. Rapid type analysis lists it exactly if an instantiated implementer inherits it along base types. The
    class itself brings the target, if that is a default method, and never the method that it is provided with. -/
theorem candidates_provided (p : Program) (hp : p.Finalized) (target : MethodId) (m : MethodDef)
    (hm : p.methods[target]? = some m) (hface : p.isInterface m.owner = true) (r x : TypeId) (c : MethodId)
    (h : Provided p target m r x c) (live : LiveTypes) :
    let cha := (ofProgram p .cha).candidates live target
    let rta := fun live : LiveTypes => (ofProgram p .rta).candidates live target
    c ∈ cha ∧
    (c ∈ rta live ↔ ∃ s ∈ live, s ∈ (Hierarchy.ofProgram p).implementersOf m.owner ∧ Inherits p target m s x c) ∧
    (∀ o, o ∈ rta [r] ↔ o = target ∧ m.hasBody = true ∧ m.isAbstract = false) ∧ c ∉ rta [r] := by
  intro cha rta
  have hne := ne_target_of_implementation? hp.wellFormed hm h.provider h.provides
  have hopen : isOpen p m = true := by simp [isOpen, hface]
  have hreceivers : (ofProgram p .rta).receiverTypes m = (Hierarchy.ofProgram p).implementersOf m.owner := if_pos hface
  have hrun : ∀ s, runOn p target m s = runOnInterface p target m s := fun _ => if_pos hface
  have halone : ∀ o, o ∈ rta [r] ↔ o = target ∧ m.hasBody = true ∧ m.isAbstract = false := by
    intro o
    rw [← runOnInterface_of_bare h.bare, ← hrun]
    refine (mem_byLive_singleton (d := ofProgram p .rta) hm hopen).trans (and_iff_right ?_)
    rw [hreceivers]
    exact h.receiver
  refine ⟨mem_byHierarchy.mpr ⟨m, hm, .inr ?_⟩, ?_, halone, ?_⟩
  · exact mem_replacements.mpr (.inl ⟨hface, x, h.provider, h.provides⟩)
  · simp only [← runOnInterface_eq_iff hp.wellFormed h.provides hne, ← hrun, ← hreceivers]
    refine (mem_byLive_of_isOpen (d := ofProgram p .rta) hm hopen).trans ?_
    simp only [and_left_comm]
    rfl
  · exact fun hin => hne ((halone c).mp hin).1

/-- Default methods are kept: a method that an instantiated class is provided with is a candidate of rapid type
    analysis. -/
def DefaultsKept (p : Program) : Prop :=
  ∀ target m r x c (live : LiveTypes), p.methods[target]? = some m → p.isInterface m.owner = true → r ∈ live →
    Provided p target m r x c → c ∈ (ofProgram p .rta).candidates live target

/-- An interface, an interface that extends it and implements its method, and a class that implements the second. -/
def polygons : List Program.Edit := [
  .addModule "App.dll",
  .addType 0 { name := "IShape", ns := "App", isInterface := true, isAbstract := true } none,
  .addType 0 { name := "IPolygon", ns := "App", isInterface := true, isAbstract := true,
               interfaceNames := ["App.IShape"] } none,
  .addType 0 { name := "Square", ns := "App", interfaceNames := ["App.IPolygon"] } none,
  .addMethod 0 { name := "Draw", isVirtual := true, isAbstract := true, isNewSlot := true },
  .addMethod 1 { name := "App.IShape.Draw", isVirtual := true, body := some [],
                 overrides := [{ owner := "App.IShape", name := "Draw" }] }]

/-- The abstract method of the first interface. -/
def shapeDraw : MethodDef :=
  { name := "Draw", owner := 0, isVirtual := true, isAbstract := true, isNewSlot := true,
    fullName := some "System.Void App.IShape::Draw()" }

/-- The class is provided with the method of the second interface. -/
theorem provided_polygons : Provided (polygons.foldl Program.edit {}).finalize 0 shapeDraw 2 1 1 := by
  refine ⟨by decide +kernel, by decide +kernel, by decide +kernel, by decide +kernel, by decide +kernel,
    by decide +kernel, by decide +kernel, fun y _ hy hr _ => ?_⟩
  have himplementers : (Hierarchy.ofProgram (polygons.foldl Program.edit {}).finalize).implementersOf shapeDraw.owner =
      [1, 2] := by decide +kernel
  rw [himplementers, List.mem_cons, List.mem_singleton] at hy
  rcases hy with rfl | rfl
  · rfl
  · exact absurd rfl (Hierarchy.ne_of_mem_implementersOf hr)

theorem candidates_provided_polygons :
    let p := (polygons.foldl Program.edit {}).finalize
    let rta := fun live : LiveTypes => (ofProgram p .rta).candidates live 0
    p.Finalized ∧ p.methods[0]? = some shapeDraw ∧ p.isInterface shapeDraw.owner = true ∧ Provided p 0 shapeDraw 2 1 1 ∧
    1 ∈ (ofProgram p .cha).candidates [2] 0 ∧
    (1 ∈ rta [2] ↔
      ∃ s ∈ [2], s ∈ (Hierarchy.ofProgram p).implementersOf shapeDraw.owner ∧ Inherits p 0 shapeDraw s 1 1) ∧
    (∀ o, o ∈ rta [2] ↔ o = 0 ∧ shapeDraw.hasBody = true ∧ shapeDraw.isAbstract = false) ∧ 1 ∉ rta [2] := by
  intro p rta
  have hfinal : p.Finalized := ⟨polygons, by decide +kernel, rfl⟩
  have hdraw : p.methods[0]? = some shapeDraw := by decide +kernel
  have hface : p.isInterface shapeDraw.owner = true := by decide +kernel
  exact ⟨hfinal, hdraw, hface, provided_polygons,
    candidates_provided p hfinal 0 shapeDraw hdraw hface 2 1 1 provided_polygons [2]⟩

/-- It loses the method: with an instance of the class, rapid type analysis finds nothing that could run. -/
theorem not_defaultsKept_polygons :
    let p := (polygons.foldl Program.edit {}).finalize
    p.Finalized ∧ ¬ DefaultsKept p ∧ (ofProgram p .cha).candidates [2] 0 = [1] ∧
    (ofProgram p .rta).candidates [2] 0 = [] := by
  intro p
  refine ⟨⟨polygons, by decide +kernel, rfl⟩, fun h => ?_, by decide +kernel, by decide +kernel⟩
  have hkept := h 0 shapeDraw 2 1 1 [2] (by decide +kernel) (by decide +kernel) (by simp) provided_polygons
  exact absurd hkept (by decide +kernel)

end Dispatch

end CallGraphs
