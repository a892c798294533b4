import Mathlib.Data.Set.Basic
import CallGraphs.Dispatch.Candidates

/-! The candidates of a virtual call, told by membership. By instantiated types they are the methods that run
    on the instantiated receivers; the test whether any receiver exists yet changes nothing. So they grow with
    the instantiated types (`candidates_mono`), and a set of types determines them (`candidatesUnder`). -/

namespace CallGraphs.Dispatch

/-- Whether the receiver decides which method a virtual call of `m` runs. -/
def isOpen (p : Program) (m : MethodDef) : Bool := p.isInterface m.owner || m.isVirtual

/-- The types that the receiver of a call of `m` can have. -/
def receiverTypes (d : Dispatch) (m : MethodDef) : List TypeId :=
  if d.program.isInterface m.owner then d.hierarchy.implementersOf m.owner
  else m.owner :: d.hierarchy.subtypesOf m.owner

/-- The method that runs on a receiver of the type `r`. -/
def runOn (p : Program) (target : MethodId) (m : MethodDef) (r : TypeId) : Option MethodId :=
  if p.isInterface m.owner then runOnInterface p target m r else runOnClass p target m r

theorem mem_receivers {d : Dispatch} {live : LiveTypes} {m : MethodDef} {r : TypeId} :
    r ∈ d.receivers live m ↔ r ∈ d.receiverTypes m ∧ r ∈ live := by
  simp [receivers, receiverTypes]

theorem isLive_iff {d : Dispatch} {live : LiveTypes} {t : TypeId} :
    d.isLive live t = true ↔ t ∈ live ∨ (∃ s ∈ d.hierarchy.subtypesOf t, s ∈ live) ∨
      (d.program.isInterface t = true ∧ ∃ s ∈ d.hierarchy.implementersOf t, s ∈ live) := by
  simp [isLive, or_assoc]

/-- A type with an instantiated receiver is live. -/
theorem isLive_of_receiver {d : Dispatch} {live : LiveTypes} {m : MethodDef} {r : TypeId}
    (hr : r ∈ d.receiverTypes m) (hlive : r ∈ live) : d.isLive live m.owner = true := by
  rw [isLive_iff]
  unfold receiverTypes at hr
  split at hr
  · rename_i hi
    exact .inr (.inr ⟨hi, r, hr, hlive⟩)
  · rcases List.mem_cons.mp hr with rfl | hr
    · exact .inl hlive
    · exact .inr (.inl ⟨r, hr, hlive⟩)

theorem mem_liveRuns {d : Dispatch} {live : LiveTypes} {target c : MethodId} {m : MethodDef} :
    c ∈ d.liveRuns live target m ↔
      (isOpen d.program m = true ∧ ∃ r ∈ d.receiverTypes m, r ∈ live ∧ runOn d.program target m r = some c) ∨
      (isOpen d.program m = false ∧ m.isAbstract = false ∧ c = target) := by
  unfold liveRuns isOpen runOn
  cases hi : d.program.isInterface m.owner with
  | true => simp [mem_receivers, and_assoc]
  | false =>
    cases hv : m.isVirtual with
    | true => simp [mem_receivers, and_assoc]
    | false => cases ha : m.isAbstract <;> simp

/-- The candidates by instantiated types are the methods that run on instantiated receivers; a target that is
    neither virtual nor declared by an interface runs itself. -/
theorem mem_byLive {d : Dispatch} {live : LiveTypes} {target c : MethodId} :
    c ∈ d.byLive live target ↔ ∃ m, d.program.methods[target]? = some m ∧
      ((isOpen d.program m = true ∧ ∃ r ∈ d.receiverTypes m, r ∈ live ∧ runOn d.program target m r = some c) ∨
       (isOpen d.program m = false ∧ m.isAbstract = false ∧ c = target)) := by
  unfold byLive
  cases hm : d.program.methods[target]? with
  | none => simp
  | some m =>
    simp only [Option.some.injEq, exists_eq_left']
    rw [← mem_liveRuns]
    split
    · -- no receiver exists yet, so none of the receivers is instantiated
      rename_i hgated
      obtain ⟨hopen, hdead⟩ : isOpen d.program m = true ∧ d.isLive live m.owner = false := by
        simpa [isGated, isOpen] using hgated
      simp only [List.not_mem_nil, mem_liveRuns, false_iff, not_or]
      refine ⟨?_, by simp [hopen]⟩
      rintro ⟨-, r, hr, hlive, -⟩
      simp [isLive_of_receiver hr hlive] at hdead
    · exact List.mem_eraseDups

theorem eq_target_of_mem_declaredCandidate {p : Program} {target c : MethodId} {m : MethodDef}
    (h : c ∈ declaredCandidate p target m) : c = target := by
  unfold declaredCandidate at h
  split at h
  · exact List.mem_singleton.mp h
  · cases h

/-- Implementers put implementations in place of the method of an interface, subtypes put overrides in place of a
    virtual method of a class. -/
theorem mem_replacements {d : Dispatch} {target c : MethodId} {m : MethodDef} : c ∈ d.replacements target m ↔
    (d.program.isInterface m.owner = true ∧
      ∃ x ∈ d.hierarchy.implementersOf m.owner, d.program.implementation? target m x = some c) ∨
    (d.program.isInterface m.owner = false ∧ m.isVirtual = true ∧
      ∃ x ∈ d.hierarchy.subtypesOf m.owner, d.program.override? m x = some c) := by
  unfold replacements
  cases d.program.isInterface m.owner <;> cases m.isVirtual <;> simp

theorem mem_byHierarchy {d : Dispatch} {target c : MethodId} :
    c ∈ d.byHierarchy target ↔ ∃ m, d.program.methods[target]? = some m ∧
      (c ∈ declaredCandidate d.program target m ∨ c ∈ d.replacements target m) := by
  unfold byHierarchy
  cases hm : d.program.methods[target]? with
  | none => simp
  | some m => simp [List.mem_eraseDups]

/-! ### Growth with the instantiated types -/

theorem byLive_mono {d : Dispatch} {live live' : LiveTypes} (h : live ⊆ live') (target : MethodId) :
    d.byLive live target ⊆ d.byLive live' target := by
  intro c hc
  obtain ⟨m, hm, hc⟩ := mem_byLive.mp hc
  refine mem_byLive.mpr ⟨m, hm, hc.imp ?_ id⟩
  rintro ⟨hopen, r, hr, hlive, hrun⟩
  exact ⟨hopen, r, hr, h hlive, hrun⟩

/-- Candidates never disappear when types are instantiated. -/
theorem candidates_mono {d : Dispatch} {live live' : LiveTypes} (h : live ⊆ live') (target : MethodId) :
    d.candidates live target ⊆ d.candidates live' target := by
  unfold candidates
  split
  · exact List.Subset.refl _
  · exact byLive_mono h target

/-- The candidates of a virtual call when the types of a set are instantiated. -/
def candidatesUnder (d : Dispatch) (types : Set TypeId) (target : MethodId) : Set MethodId :=
  {c | ∃ live : LiveTypes, (∀ t ∈ live, t ∈ types) ∧ c ∈ d.candidates live target}

theorem candidatesUnder_mono {d : Dispatch} {types types' : Set TypeId} (h : types ⊆ types')
    (target : MethodId) : d.candidatesUnder types target ⊆ d.candidatesUnder types' target := by
  rintro c ⟨live, hlive, hc⟩
  exact ⟨live, fun t ht => h (hlive t ht), hc⟩

/-- For the types of a list they are the candidates that are computed with that list. -/
theorem candidatesUnder_list (d : Dispatch) (live : LiveTypes) (target : MethodId) :
    d.candidatesUnder {t | t ∈ live} target = {c | c ∈ d.candidates live target} := by
  ext c
  constructor
  · rintro ⟨live', hsub, hc⟩
    exact candidates_mono hsub target hc
  · exact fun hc => ⟨live, fun _ ht => ht, hc⟩

end CallGraphs.Dispatch
