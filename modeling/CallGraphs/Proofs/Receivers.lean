import Mathlib.Data.Finset.Image
import Mathlib.Data.Set.Lattice
import CallGraphs.Proofs.BaseChains
import CallGraphs.Proofs.Narrowing

/-! What instantiated receivers contribute to a virtual call. Each of them runs at most one method, and whether the
    others exist makes no difference to it. So the candidates under two sets of instantiated types together are the
    candidates under the one and under the other (`candidates_union`), and there are never more candidates than
    receivers. The method that a receiver runs is concrete; it is the target or stands on the receiver's own chain of
    base types, where, without cycles, every type is live (`candidates_of_receivers`). -/

namespace CallGraphs

namespace Program

variable {p : Program} {t : TypeId} {c : MethodId}

/-! ### Methods found in a type -/

theorem WellFormed.owner_of_firstMethod? (h : p.WellFormed) {test : MethodDef → Bool}
    (hc : p.firstMethod? t test = some c) : ∃ x, p.methods[c]? = some x ∧ x.owner = t ∧ test x = true := by
  obtain ⟨ty, x, hty, hmem, hx, htest⟩ := firstMethod?_eq_some hc
  have howner : p.ownerOf? c = some t := h.mem_methodsOf.mp (by simpa [methodsOf, hty] using hmem)
  rw [ownerOf?, hx] at howner
  exact ⟨x, hx, Option.some.inj howner, htest⟩

/-- A method is found only in the type that declares it. -/
theorem WellFormed.eq_of_firstMethod? (h : p.WellFormed) {test : MethodDef → Bool} {d : MethodDef}
    (hd : p.methods[c]? = some d) (hc : p.firstMethod? t test = some c) : t = d.owner := by
  obtain ⟨x, hx, rfl, -⟩ := h.owner_of_firstMethod? hc
  rw [Option.some.inj (hx.symm.trans hd)]

theorem WellFormed.owner_of_override? (h : p.WellFormed) {m : MethodDef} (hc : p.override? m t = some c) :
    ∃ x, p.methods[c]? = some x ∧ x.owner = t ∧ x.isAbstract = false ∧ x.isNewSlot = false := by
  obtain ⟨x, hx, howner, htest⟩ := h.owner_of_firstMethod? hc
  simp only [Bool.and_eq_true, Bool.not_eq_true'] at htest
  exact ⟨x, hx, howner, htest.1.1.2, htest.1.2⟩

theorem WellFormed.owner_of_implementation? (h : p.WellFormed) {target : MethodId} {m : MethodDef}
    (hc : p.implementation? target m t = some c) :
    ∃ x, p.methods[c]? = some x ∧ x.owner = t ∧ x.isAbstract = false := by
  obtain ⟨x, hx, howner, htest⟩ := h.owner_of_firstMethod? hc
  simp only [Bool.and_eq_true, Bool.not_eq_true'] at htest
  exact ⟨x, hx, howner, htest.1.1⟩

end Program

/-! ### Several instantiated types -/

namespace LiveTypes

/-- Note instantiated types one after the other. -/
def addAll (live : LiveTypes) (types : List TypeId) : LiveTypes := types.foldl (fun live t => (live.add t).2) live

theorem mem_add {live : LiveTypes} {t u : TypeId} : u ∈ (live.add t).2 ↔ u ∈ live ∨ u = t := by
  by_cases ht : t ∈ live
  · rw [add_of_mem ht]
    refine ⟨.inl, ?_⟩
    rintro (hu | rfl)
    · exact hu
    · exact ht
  · rw [add_of_not_mem ht, List.mem_append, List.mem_singleton]

end LiveTypes

namespace Dispatch

section Union

variable {d : Dispatch} {target c : MethodId}

/-- A candidate is owed to one of the two sets of types. -/
theorem mem_byLive_union {live live₁ live₂ : LiveTypes} (h : ∀ t, t ∈ live ↔ t ∈ live₁ ∨ t ∈ live₂) :
    c ∈ d.byLive live target ↔ c ∈ d.byLive live₁ target ∨ c ∈ d.byLive live₂ target := by
  constructor
  · intro hc
    obtain ⟨m, hm, ⟨hopen, r, hr, hlive, hrun⟩ | hclosed⟩ := mem_byLive.mp hc
    · -- the receiver that runs it is of one of the two
      refine ((h r).mp hlive).imp (fun hr₁ => ?_) (fun hr₂ => ?_)
      · exact mem_byLive.mpr ⟨m, hm, .inl ⟨hopen, r, hr, hr₁, hrun⟩⟩
      · exact mem_byLive.mpr ⟨m, hm, .inl ⟨hopen, r, hr, hr₂, hrun⟩⟩
    · exact .inl (mem_byLive.mpr ⟨m, hm, .inr hclosed⟩)
  · rintro (hc | hc)
    · exact byLive_mono (fun t ht => (h t).mpr (.inl ht)) target hc
    · exact byLive_mono (fun t ht => (h t).mpr (.inr ht)) target hc

/-- One more instantiated type brings what it brings alone. -/
theorem mem_byLive_add {live : LiveTypes} {t : TypeId} :
    c ∈ d.byLive (live.add t).2 target ↔ c ∈ d.byLive live target ∨ c ∈ d.byLive [t] target :=
  mem_byLive_union fun u => by rw [LiveTypes.mem_add, List.mem_singleton]

theorem mem_byLive_addAll : ∀ (types : List TypeId) (live : LiveTypes),
    c ∈ d.byLive (live.addAll types) target ↔
      c ∈ d.byLive live target ∨ ∃ t ∈ types, c ∈ d.byLive [t] target
  | [], live => by simp [LiveTypes.addAll]
  | t :: types, live => by
      have hrest := mem_byLive_addAll types (live.add t).2
      rw [mem_byLive_add, or_assoc] at hrest
      rw [List.exists_mem_cons_iff]
      exact hrest

end Union

/-- Under two sets of instantiated types together, rapid type analysis lists the candidates under the one and those
    under the other. So types that become known one after the other, in any order, add to the candidates what each of
    them brings alone, and take nothing away. -/
theorem candidates_union (p : Program) (target : MethodId) (live₁ live₂ : LiveTypes) :
    let rta := fun live : LiveTypes => {c | c ∈ (ofProgram p .rta).candidates live target}
    (∀ live : LiveTypes, (∀ t, t ∈ live ↔ t ∈ live₁ ∨ t ∈ live₂) → rta live = rta live₁ ∪ rta live₂) ∧
    ∀ types : List TypeId, rta (live₁.addAll types) = rta live₁ ∪ ⋃ t ∈ types, rta [t] := by
  refine ⟨fun live h => Set.ext fun c => mem_byLive_union h, fun types => Set.ext fun c => ?_⟩
  simp only [Set.mem_union, Set.mem_iUnion, exists_prop]
  exact mem_byLive_addAll types live₁

theorem candidates_union_shapes :
    let rta := fun live : LiveTypes => (ofProgram shapes .rta).candidates live 0
    (∀ t, t ∈ [2, 3] ↔ t ∈ [3] ∨ t ∈ [2]) ∧ {c | c ∈ rta [2, 3]} = {c | c ∈ rta [3]} ∪ {c | c ∈ rta [2]} ∧
    (rta [3], rta [2], rta [2, 3]) = ([1], [0], [1, 0]) := by
  have hboth : ∀ t, t ∈ [2, 3] ↔ t ∈ [3] ∨ t ∈ [2] := by
    intro t
    simp [or_comm]
  exact ⟨hboth, (candidates_union shapes 0 [3] [2]).1 [2, 3] hboth, by decide +kernel⟩

section Receivers

variable {p : Program} {target c : MethodId} {m : MethodDef} {r t : TypeId} {live : LiveTypes}

/-! ### What one receiver runs -/

/-- A receiver runs a concrete method, which is the target or belongs to a type on the chain of the receiver. -/
theorem owner_of_runOn (h : p.WellFormed) (hm : p.methods[target]? = some m) (hrun : runOn p target m r = some c) :
    ∃ x, p.methods[c]? = some x ∧ x.isAbstract = false ∧ (c = target ∨ x.owner ∈ p.chain r) := by
  unfold runOn at hrun
  split at hrun
  · rcases runOnInterface_eq_some hrun with ⟨b, front, back, hchain, himpl, -⟩ | ⟨rfl, -, habs⟩
    · obtain ⟨x, hx, rfl, habs⟩ := h.owner_of_implementation? himpl
      exact ⟨x, hx, habs, .inr (by simp [hchain])⟩
    · exact ⟨m, hm, habs, .inl rfl⟩
  · rcases runOnClass_eq_some hrun with ⟨front, b, back, hbelow, hover, -⟩ | ⟨rfl, habs⟩
    · obtain ⟨x, hx, rfl, habs, -⟩ := h.owner_of_override? hover
      have hmem : x.owner ∈ (p.chain r).takeWhile (· != m.owner) := by simp [hbelow]
      exact ⟨x, hx, habs, .inr ((List.takeWhile_sublist _).subset hmem)⟩
    · exact ⟨m, hm, habs, .inl rfl⟩

/-- The types on the chain of an instantiated type are live, as far as their own chains end. -/
theorem isLive_of_mem_chain {a : Algorithm} (hp : p.BasesExist) (hr : r ∈ live) (ht : t ∈ p.chain r)
    (hends : p.chainEnds t = true) : (ofProgram p a).isLive live t = true := by
  rw [isLive_iff]
  rcases Hierarchy.eq_or_mem_subtypesOf hp ht hends with rfl | hsub
  · exact .inl hr
  · exact .inr (.inl ⟨r, hsub, hr⟩)

/-! ### All receivers -/

/-- Where the receiver decides, every candidate is run by an instantiated receiver. -/
theorem mem_byLive_of_isOpen {d : Dispatch} (hm : d.program.methods[target]? = some m)
    (hopen : isOpen d.program m = true) :
    c ∈ d.byLive live target ↔ ∃ r ∈ d.receiverTypes m, r ∈ live ∧ runOn d.program target m r = some c := by
  rw [mem_byLive]
  simp [hm, hopen]

/-- A single instantiated type brings what it runs, if it is a receiver. -/
theorem mem_byLive_singleton {d : Dispatch} (hm : d.program.methods[target]? = some m)
    (hopen : isOpen d.program m = true) :
    c ∈ d.byLive [r] target ↔ r ∈ d.receiverTypes m ∧ runOn d.program target m r = some c := by
  rw [mem_byLive_of_isOpen hm hopen]
  constructor
  · rintro ⟨s, hs, hlive, hrun⟩
    rw [List.mem_singleton.mp hlive] at hs hrun
    exact ⟨hs, hrun⟩
  · rintro ⟨hr, hrun⟩
    exact ⟨r, hr, List.mem_singleton_self r, hrun⟩

theorem nodup_byLive (d : Dispatch) (live : LiveTypes) (target : MethodId) : (d.byLive live target).Nodup := by
  unfold byLive
  split
  · exact List.nodup_nil
  · split
    · exact List.nodup_nil
    · exact Firsts.nodup_eraseDups _

/-- Each receiver brings at most one candidate. -/
theorem length_byLive_le {d : Dispatch} (hm : d.program.methods[target]? = some m)
    (hopen : isOpen d.program m = true) :
    (d.byLive live target).length ≤ ((d.receiverTypes m).toFinset.filter (· ∈ live)).card := by
  let found := (d.byLive live target).toFinset
  let receivers := (d.receiverTypes m).toFinset.filter (· ∈ live)
  have hruns : found.image some ⊆ receivers.image (runOn d.program target m) := by
    intro o ho
    obtain ⟨c, hc, rfl⟩ := Finset.mem_image.mp ho
    obtain ⟨r, hr, hlive, hrun⟩ := (mem_byLive_of_isOpen hm hopen).mp (List.mem_toFinset.mp hc)
    exact Finset.mem_image.mpr ⟨r, Finset.mem_filter.mpr ⟨List.mem_toFinset.mpr hr, hlive⟩, hrun⟩
  calc (d.byLive live target).length
      = found.card := (List.toFinset_card_of_nodup (nodup_byLive d live target)).symm
    _ = (found.image some).card := (Finset.card_image_of_injective found (Option.some_injective _)).symm
    _ ≤ (receivers.image (runOn d.program target m)).card := Finset.card_le_card hruns
    _ ≤ receivers.card := Finset.card_image_le

end Receivers

/-- Where the receiver decides, every candidate of rapid type analysis is concrete, and it is the target or belongs
    to a type on the chain of an instantiated receiver. There are no more candidates than such receivers. If no type
    is its own ancestor, which is when the hierarchy gives no warning, the types of the candidates are live. -/
theorem candidates_of_receivers (p : Program) (hp : p.Finalized) (live : LiveTypes) (target : MethodId)
    (m : MethodDef) (hm : p.methods[target]? = some m) (hopen : p.isInterface m.owner = true ∨ m.isVirtual = true) :
    let d := ofProgram p .rta
    let receivers := (if p.isInterface m.owner then d.hierarchy.implementersOf m.owner
      else m.owner :: d.hierarchy.subtypesOf m.owner).toFinset.filter (· ∈ live)
    (∀ c ∈ d.candidates live target, ∃ x, p.methods[c]? = some x ∧ x.isAbstract = false ∧
      (c = target ∨ ∃ r ∈ receivers, x.owner ∈ p.chain r) ∧
      (p.Acyclic → d.isLive live x.owner = true)) ∧
    (d.candidates live target).length ≤ receivers.card ∧
    (p.Acyclic ↔ ∀ n ∈ Hierarchy.notices p, n.level ≠ .warn) := by
  intro d receivers
  have hopen : isOpen p m = true := by simpa [isOpen] using hopen
  refine ⟨fun c hc => ?_, length_byLive_le hm hopen, Hierarchy.acyclic_iff_no_warning hp.basesExist⟩
  obtain ⟨r, hr, hlive, hrun⟩ := (mem_byLive_of_isOpen (d := d) hm hopen).mp hc
  obtain ⟨x, hx, habs, hplace⟩ := owner_of_runOn hp.wellFormed hm hrun
  refine ⟨x, hx, habs, hplace.imp id fun hchain => ⟨r, ?_, hchain⟩, fun hacyclic => ?_⟩
  · exact Finset.mem_filter.mpr ⟨List.mem_toFinset.mpr hr, hlive⟩
  · rcases hplace with rfl | hchain
    · obtain rfl : x = m := Option.some.inj (hx.symm.trans hm)
      exact isLive_of_receiver hr hlive
    · have hlt := (Program.exists_ancestor?_of_mem_chain hchain).1
      exact isLive_of_mem_chain hp.basesExist hlive hchain (hp.basesExist.acyclic_iff.mp hacyclic _ hlt)

/-- An interface, a class that implements it, and a class derived from that one. -/
def greeters : List Program.Edit := [
  .addModule "App.dll",
  .addType 0 { name := "IGreeter", ns := "App", isInterface := true, isAbstract := true } none,
  .addType 0 { name := "Friendly", ns := "App", interfaceNames := ["App.IGreeter"] } none,
  .addType 0 { name := "Child", ns := "App", baseName := "App.Friendly" } none,
  .addMethod 0 { name := "Greet", isVirtual := true, isAbstract := true, isNewSlot := true },
  .addMethod 1 { name := "Greet", isVirtual := true, isNewSlot := true, body := some [] }]

theorem candidates_of_receivers_greeters :
    let p := (greeters.foldl Program.edit {}).finalize
    let d := ofProgram p .rta
    let greet : MethodDef := { name := "Greet", owner := 0, isVirtual := true, isAbstract := true, isNewSlot := true,
                               fullName := some "System.Void App.IGreeter::Greet()" }
    p.Finalized ∧ p.methods[0]? = some greet ∧ p.isInterface greet.owner = true ∧ p.Acyclic ∧
    d.candidates [2] 0 = [1] ∧ (d.candidates [2] 0).length ≤ 1 ∧
    ∃ x, p.methods[1]? = some x ∧ x.isAbstract = false ∧ (1 = 0 ∨ ∃ r ∈ [2], x.owner ∈ p.chain r) ∧
      d.isLive [2] x.owner = true := by
  intro p d greet
  have hfinal : p.Finalized := ⟨greeters, by decide +kernel, rfl⟩
  have hgreet : p.methods[0]? = some greet := by decide +kernel
  have hface : p.isInterface greet.owner = true := by decide +kernel
  obtain ⟨hall, hcount, hsilent⟩ := candidates_of_receivers p hfinal [2] 0 greet hgreet (.inl hface)
  have hacyclic : p.Acyclic := hsilent.mpr (by decide +kernel)
  have hreceivers : (d.hierarchy.implementersOf 0).toFinset.filter (· ∈ [2]) = {2} := by decide +kernel
  rw [if_pos hface, hreceivers] at hall hcount
  have hmem : 1 ∈ d.candidates [2] 0 := by decide +kernel
  obtain ⟨x, hx, habs, hplace, hlive⟩ := hall 1 hmem
  exact ⟨hfinal, hgreet, hface, hacyclic, by decide +kernel, hcount, x, hx, habs, by simpa using hplace,
    hlive hacyclic⟩

end Dispatch

end CallGraphs
