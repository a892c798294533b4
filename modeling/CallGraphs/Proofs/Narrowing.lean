import CallGraphs.Description.Load
import CallGraphs.Proofs.Fixpoint
import CallGraphs.Proofs.Subtypes

/-! When rapid type analysis narrows class hierarchy analysis. Through a class it always does. Through an
    interface an instantiated implementer may run a method of a base type, and class hierarchy analysis looks
    only into the implementers: a base type that does not implement the interface is overlooked. The findings
    lie within those of class hierarchy analysis exactly if no call is lost this way (`rta_le_cha_iff`). -/

namespace CallGraphs

namespace Dispatch

/-! ### Calls through an interface -/

/-- The nearest implementation on the chain of `r` is `c`, which is a method of `b`. -/
def Inherits (p : Program) (target : MethodId) (m : MethodDef) (r b : TypeId) (c : MethodId) : Prop :=
  ∃ front back, p.chain r = front ++ b :: back ∧ p.implementation? target m b = some c ∧
    ∀ t ∈ front, p.implementation? target m t = none

/-- An instantiated implementer of the interface that declares `target` runs `c`, which it inherits from a
    type that is no implementer itself. -/
def Borrows (p : Program) (live : LiveTypes) (target c : MethodId) : Prop :=
  ∃ m r b, p.methods[target]? = some m ∧ p.isInterface m.owner = true ∧
    r ∈ (Hierarchy.ofProgram p).implementersOf m.owner ∧ r ∈ live ∧ Inherits p target m r b c ∧
    b ∉ (Hierarchy.ofProgram p).implementersOf m.owner

theorem runOnInterface_eq_some {p : Program} {target c : MethodId} {m : MethodDef} {r : TypeId}
    (h : runOnInterface p target m r = some c) :
    (∃ b, Inherits p target m r b c) ∨ (c = target ∧ m.hasBody = true ∧ m.isAbstract = false) := by
  unfold runOnInterface at h
  split at h
  · rename_i i hi
    obtain rfl : i = c := Option.some.inj h
    obtain ⟨front, b, back, hchain, himpl, hfront⟩ := List.findSome?_eq_some_iff.mp hi
    exact .inl ⟨b, front, back, hchain, himpl, hfront⟩
  · split at h
    · rename_i hcond
      obtain ⟨hbody, habs⟩ := Bool.and_eq_true_iff.mp hcond
      exact .inr ⟨(Option.some.inj h).symm, hbody, by simpa using habs⟩
    · simp at h

theorem Inherits.runOnInterface {p : Program} {target c : MethodId} {m : MethodDef} {r b : TypeId}
    (h : Inherits p target m r b c) : runOnInterface p target m r = some c := by
  obtain ⟨front, back, hchain, himpl, hfront⟩ := h
  have hfound : (p.chain r).findSome? (p.implementation? target m) = some c :=
    List.findSome?_eq_some_iff.mpr ⟨front, b, back, hchain, himpl, hfront⟩
  rw [Dispatch.runOnInterface, hfound]

/-- A candidate by instantiated types is one by class hierarchy too, or it is borrowed. -/
theorem mem_byHierarchy_or_borrows {p : Program} {a b : Algorithm} {live : LiveTypes} {target c : MethodId}
    (h : c ∈ (ofProgram p a).byLive live target) :
    c ∈ (ofProgram p b).byHierarchy target ∨ Borrows p live target c := by
  obtain ⟨m, hm, hc⟩ := mem_byLive.mp h
  cases hi : p.isInterface m.owner with
  | false => exact .inl (byLive_subset_byHierarchy hm hi h)
  | true =>
    simp only [isOpen, receiverTypes, runOn, ofProgram, hi, Bool.true_or, if_true, true_and, Bool.true_eq_false,
      false_and, or_false] at hc
    obtain ⟨r, hr, hlive, hrun⟩ := hc
    rcases runOnInterface_eq_some hrun with ⟨t, hinherits⟩ | ⟨rfl, hbody, habs⟩
    · by_cases ht : t ∈ (Hierarchy.ofProgram p).implementersOf m.owner
      · refine .inl (mem_byHierarchy.mpr ⟨m, hm, .inr ?_⟩)
        obtain ⟨-, -, -, himpl, -⟩ := hinherits
        exact mem_replacements.mpr (.inl ⟨hi, t, ht, himpl⟩)
      · exact .inr ⟨m, r, t, hm, hi, hr, hlive, hinherits, ht⟩
    · refine .inl (mem_byHierarchy.mpr ⟨m, hm, .inl ?_⟩)
      simp [declaredCandidate, hbody, habs]

theorem Borrows.mem_byLive {p : Program} {a : Algorithm} {live : LiveTypes} {target c : MethodId}
    (h : Borrows p live target c) : c ∈ (ofProgram p a).byLive live target := by
  obtain ⟨m, r, b, hm, hi, hr, hlive, hinherits, -⟩ := h
  refine Dispatch.mem_byLive.mpr ⟨m, hm, .inl ⟨by simp [isOpen, ofProgram, hi], r, ?_, hlive, ?_⟩⟩
  · simpa [receiverTypes, ofProgram, hi] using hr
  · simpa [runOn, ofProgram, hi] using hinherits.runOnInterface

end Dispatch

/-- What both find. -/
def Findings.inter (F G : Findings) : Findings := ⟨F.nodes ∩ G.nodes, F.edges ∩ G.edges, F.types ∩ G.types⟩

namespace Analysis

/-! ### Whole runs -/

/-- What both analyses find is closed for rapid type analysis if all borrowed calls are known to class hierarchy
    analysis. -/
theorem inter_closed {p : Program} {seeds : List MethodId}
    (h : ∀ site ∈ (run (.ofProgram p .rta) seeds).scan.sites, ∀ c,
      Dispatch.Borrows p (run (.ofProgram p .rta) seeds).scan.live site.target c →
        ⟨site.caller, c⟩ ∈ (run (.ofProgram p .cha) seeds).scan.graph.edges) :
    ((run (.ofProgram p .rta) seeds).findings.inter (run (.ofProgram p .cha) seeds).findings).Closed
      (.ofProgram p .rta) seeds := by
  have hrta := findings_closed (.ofProgram p .rta) seeds
  have hcha := findings_closed (.ofProgram p .cha) seeds
  refine ⟨fun m hm hb => ⟨hrta.seed m hm hb, hcha.seed m hm hb⟩,
    fun m c hm he hb => ⟨hrta.callee m c hm.1 he.1 hb, hcha.callee m c hm.2 he.2 hb⟩,
    fun m c hm hcall => ⟨hrta.call m c hm.1 hcall, hcha.call m c hm.2 hcall⟩,
    fun m t hm hnew => ⟨hrta.create m t hm.1 hnew, hcha.create m t hm.2 hnew⟩, ?_⟩
  intro m t c hm hdispatch hc
  have hc' := Dispatch.candidatesUnder_mono Set.inter_subset_left t hc
  refine ⟨hrta.dispatch m t c hm.1 hdispatch hc', ?_⟩
  obtain ⟨live, hlive, hmem⟩ := hc'
  rcases Dispatch.mem_byHierarchy_or_borrows (b := .cha) (Dispatch.byLive_mono hlive t hmem) with hin | hborrows
  · exact hcha.dispatch m t c hm.2 hdispatch ⟨[], by simp, hin⟩
  · have hlooked := Scan.hasNode_iff.mp hm.1
    exact h ⟨m, t⟩ ((run_kept _ seeds).sites _ |>.mpr ⟨hlooked, hdispatch⟩) c hborrows

/-- Rapid type analysis finds no more than class hierarchy analysis exactly if the latter knows every call of a
    method that an instantiated implementer of an interface inherits from a type which does not implement the
    interface. -/
theorem rta_le_cha_iff (p : Program) (seeds : List MethodId) :
    let rta := run (.ofProgram p .rta) seeds
    let cha := run (.ofProgram p .cha) seeds
    rta.findings ≤ cha.findings ↔
      ∀ site ∈ rta.scan.sites, ∀ c, Dispatch.Borrows p rta.scan.live site.target c →
        ⟨site.caller, c⟩ ∈ cha.scan.graph.edges := by
  intro rta cha
  constructor
  · intro hle site hsite c hborrows
    obtain ⟨hlooked, hdispatch⟩ := ((run_kept (.ofProgram p .rta) seeds).sites site).mp hsite
    refine hle.2.1 ((findings_closed (.ofProgram p .rta) seeds).dispatch site.caller site.target c
      (Scan.hasNode_iff.mpr hlooked) hdispatch ?_)
    exact ⟨rta.scan.live, fun _ ht => ht, hborrows.mem_byLive⟩
  · intro h
    obtain ⟨hnodes, hedges, htypes⟩ := findings_le (inter_closed h)
    exact ⟨fun m hm => (hnodes hm).2, fun e he => (hedges he).2, fun t ht => (htypes ht).2⟩

/-- A class that implements an interface by a method of its base class, which does not implement it. -/
def borrowing : Json :=
  .obj [("Modules", .arr [.obj [("Name", .str "App.dll"), ("Types", .arr [
    .obj [("Name", .str "IRun"), ("Namespace", .str "App"), ("IsInterface", .bool true),
      ("IsAbstract", .bool true), ("Methods", .arr [
        .obj [("Name", .str "Run"), ("IsVirtual", .bool true), ("IsAbstract", .bool true)]])],
    .obj [("Name", .str "Base"), ("Namespace", .str "App"),
      ("Methods", .arr [.obj [("Name", .str "Run"), ("IsVirtual", .bool true), ("Body", .arr [])]])],
    .obj [("Name", .str "Derived"), ("Namespace", .str "App"), ("BaseType", .str "App.Base"),
      ("Interfaces", .arr [.str "App.IRun"]),
      ("Methods", .arr [.obj [("Name", .str ".ctor"), ("Body", .arr [])]])],
    .obj [("Name", .str "Program"), ("Namespace", .str "App"), ("Methods", .arr [
      .obj [("Name", .str "Main"), ("IsStatic", .bool true), ("Body", .arr [
        .obj [("OpCode", .str "newobj"),
          ("Method", .obj [("DeclaringType", .str "App.Derived"), ("Name", .str ".ctor")])],
        .obj [("OpCode", .str "callvirt"),
          ("Method", .obj [("DeclaringType", .str "App.IRun"), ("Name", .str "Run")])]])]])]])]])]

/-- On it, the method of the base class is called by rapid type analysis only. -/
theorem not_rta_le_cha_borrowing : ∃ d, Program.ofDocument "app.json" borrowing = .ok d ∧
    ¬ (run (.ofProgram d.program .rta) [3]).findings ≤ (run (.ofProgram d.program .cha) [3]).findings := by
  have hcall : (match Program.ofDocument "app.json" borrowing with
      | .ok d => decide (⟨3, 1⟩ ∈ (run (.ofProgram d.program .rta) [3]).scan.graph.edges ∧
          ⟨3, 1⟩ ∉ (run (.ofProgram d.program .cha) [3]).scan.graph.edges)
      | .error _ => false) = true := by decide +kernel
  split at hcall
  · rename_i d hd
    obtain ⟨hrta, hcha⟩ := of_decide_eq_true hcall
    exact ⟨d, hd, fun hle => hcha (hle.2.1 hrta)⟩
  · simp at hcall

end Analysis

end CallGraphs
