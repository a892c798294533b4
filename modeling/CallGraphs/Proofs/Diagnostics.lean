import CallGraphs.Proofs.Bookkeeping
import CallGraphs.Proofs.Receivers

/-! Problems are complete and local. What a search reports of a method is written down here by rules that speak of names
    alone (`Diagnosed`): what is wrong with the continuation comes first, then one entry for each instruction that names
    something the program does not define, and nothing at all if another method drives the continuation. In a finalized
    program the rules fit exactly one list (`diagnosed_iff`), whatever is searched for and how. The problems of a search
    are these lists for its nodes, one after the other (`run_problems`). -/

namespace CallGraphs

namespace Program

variable {p : Program} {m : MethodId} {x : MethodDef} {t : TypeId} {l : List (ProblemKind × String)}

/-! ### What is wrong with a method -/

/-- An operand that leads nowhere: the kind of problem and the reference. -/
def brokenReference? (p : Program) : Instruction → Option (ProblemKind × String)
  | .onMethod _ r => if p.resolve? r = none then some (.unresolvedMethod, r.text) else none
  | .onType _ name => if p.typeNamed? name = none then some (.unresolvedType, name) else none
  | .other => none

/-- The operands of a body that lead nowhere, in the order of the instructions and as often as they occur. -/
def brokenReferences (p : Program) (x : MethodDef) : List (ProblemKind × String) :=
  (x.body.getD []).filterMap p.brokenReference?

/-- A method of the type drives a continuation: it is called `MoveNext` and has a body. -/
def Driven (p : Program) (t : TypeId) : Prop :=
  ∃ (m : MethodId) (x : MethodDef), p.methods[m]? = some x ∧ x.owner = t ∧ x.name = "MoveNext" ∧ x.hasBody = true

/-- The list of what is wrong with a method. -/
inductive Diagnosed (p : Program) (x : MethodDef) : List (ProblemKind × String) → Prop
  | plain : x.continuation = none → Diagnosed p x (p.brokenReferences x)
  | unbound {c : Continuation} : x.continuation = some c → (∀ t, p.fullNameOf? t ≠ some c.typeName) →
      Diagnosed p x ((.unresolvedType, c.typeName) :: p.brokenReferences x)
  | undriven {c : Continuation} {t : TypeId} : x.continuation = some c → p.fullNameOf? t = some c.typeName →
      ¬ p.Driven t → Diagnosed p x ((.missingDriver, c.typeName) :: p.brokenReferences x)
  | driven {c : Continuation} {t : TypeId} : x.continuation = some c → p.fullNameOf? t = some c.typeName →
      p.Driven t → Diagnosed p x []

end Program

/-! ### What a search reports -/

/-- The kind of problem and the reference that an effect reports. -/
def Effect.complaint? : Effect → Option (ProblemKind × String)
  | .problem kind reference => some (kind, reference)
  | _ => none

theorem Effect.flatMap_problems (m : MethodId) (l : List Effect) :
    l.flatMap (problems m) = (l.filterMap complaint?).map fun c => ⟨c.1, m, c.2⟩ := by
  induction l with
  | nil => rfl
  | cons e l ih =>
    rw [List.flatMap_cons, ih]
    cases e <;> rfl

namespace Program

variable {p : Program} {m : MethodId} {x : MethodDef} {t : TypeId} {l : List (ProblemKind × String)}

/-- What the effects of a method report. -/
def complaints (p : Program) (x : MethodDef) : List (ProblemKind × String) :=
  (p.effects x).filterMap Effect.complaint?

theorem complaints_methodEffects (op : MethodOp) (r : MethodRef) (target : MethodId) :
    (p.methodEffects op r target).filterMap Effect.complaint? = [] := by
  refine List.filterMap_eq_nil_iff.mpr fun e he => ?_
  cases op with
  | call =>
    rcases List.mem_append.mp he with he | he
    · obtain ⟨y, -, -, -, rfl⟩ := mem_constructedByCall.mp he
      rfl
    · exact List.mem_singleton.mp he ▸ rfl
  | newobj =>
    rcases List.mem_append.mp he with he | he
    · obtain ⟨u, -, rfl⟩ := Option.map_eq_some_iff.mp (Option.mem_toList.mp he)
      rfl
    · exact List.mem_singleton.mp he ▸ rfl
  | _ => exact List.mem_singleton.mp he ▸ rfl

theorem complaints_instructionEffects (i : Instruction) :
    (p.instructionEffects i).filterMap Effect.complaint? = (p.brokenReference? i).toList := by
  cases i with
  | onMethod op r =>
    cases hr : p.resolve? r with
    | none =>
      simp only [instructionEffects, brokenReference?, hr, if_true]
      rfl
    | some target =>
      simp only [instructionEffects, brokenReference?, hr, reduceCtorEq, if_false]
      exact complaints_methodEffects op r target
  | onType op name =>
    cases hname : p.typeNamed? name with
    | none => simp [instructionEffects, brokenReference?, hname, Effect.complaint?]
    | some u =>
      simp only [instructionEffects, brokenReference?, hname]
      split <;> simp [Effect.complaint?]
  | other => rfl

theorem complaints_bodyEffects (x : MethodDef) :
    (p.bodyEffects x).filterMap Effect.complaint? = p.brokenReferences x := by
  rw [bodyEffects, brokenReferences]
  induction x.body.getD [] with
  | nil => rfl
  | cons i body ih =>
    rw [List.flatMap_cons, List.filterMap_append, complaints_instructionEffects, ih, List.filterMap_cons]
    cases p.brokenReference? i <;> rfl

/-! ### The rules fit -/

theorem WellFormed.driver?_isSome_iff (h : p.WellFormed) : (p.driver? t).isSome = true ↔ p.Driven t := by
  constructor
  · intro hsome
    obtain ⟨m, hm⟩ := Option.isSome_iff_exists.mp hsome
    obtain ⟨x, hx, howner, htest⟩ := h.owner_of_firstMethod? hm
    rw [Bool.and_eq_true, beq_iff_eq] at htest
    exact ⟨m, x, hx, howner, htest⟩
  · rintro ⟨m, x, hx, howner, hname, hbody⟩
    have hmem : m ∈ p.methodsOf t := h.mem_methodsOf.mpr (by rw [ownerOf?, hx, Option.map_some, howner])
    cases hty : p.types[t]? with
    | none => simp [methodsOf, hty] at hmem
    | some ty =>
      have hmethod : m ∈ ty.methods := by simpa [methodsOf, hty] using hmem
      rw [driver?, firstMethod?, hty, Option.bind_some, List.find?_isSome]
      exact ⟨m, hmethod, by simp [hx, hname, hbody]⟩

theorem exists_diagnosed (p : Program) (x : MethodDef) : ∃ l, p.Diagnosed x l := by
  cases hc : x.continuation with
  | none => exact ⟨_, .plain hc⟩
  | some c =>
    by_cases hbound : ∃ t, p.fullNameOf? t = some c.typeName
    · obtain ⟨t, ht⟩ := hbound
      by_cases hdriven : p.Driven t
      · exact ⟨_, .driven hc ht hdriven⟩
      · exact ⟨_, .undriven hc ht hdriven⟩
    · exact ⟨_, .unbound hc (not_exists.mp hbound)⟩

theorem Finalized.complaints_eq (hp : p.Finalized) (hx : p.methods[m]? = some x) (h : p.Diagnosed x l) :
    l = p.complaints x := by
  -- a continuation type is bound to the type that has its name
  have hbound : ∀ {c t}, x.continuation = some c → p.fullNameOf? t = some c.typeName → x.continuationType = some t :=
    fun hc ht => (hp.bound.continuation m x _ hx).mpr ⟨fullNameOf?_lt ht, _, hc, ht⟩
  rw [complaints, effects]
  cases h with
  | plain hc =>
    simp only [hc]
    exact (complaints_bodyEffects x).symm
  | @unbound c hc hnone =>
    have htype : x.continuationType = none := by
      refine Option.eq_none_iff_forall_ne_some.mpr fun t ht => ?_
      obtain ⟨-, c', hc', hname⟩ := (hp.bound.continuation m x t hx).mp ht
      obtain rfl : c = c' := Option.some.inj (hc.symm.trans hc')
      exact hnone t hname
    simp only [hc, htype, List.filterMap_cons, Effect.complaint?, complaints_bodyEffects]
  | @undriven c t hc ht hdriven =>
    have hdriver : p.driver? t = none := by
      rw [← Option.not_isSome_iff_eq_none, hp.wellFormed.driver?_isSome_iff]
      exact hdriven
    simp only [hc, hbound hc ht, hdriver, List.filterMap_cons, Effect.complaint?, complaints_bodyEffects]
  | @driven c t hc ht hdriven =>
    obtain ⟨driver, hdriver⟩ := Option.isSome_iff_exists.mp (hp.wellFormed.driver?_isSome_iff.mpr hdriven)
    simp [hc, hbound hc ht, hdriver, Effect.complaint?]

theorem Finalized.diagnosed_iff (hp : p.Finalized) (hx : p.methods[m]? = some x) :
    p.Diagnosed x l ↔ l = p.complaints x := by
  refine ⟨hp.complaints_eq hx, ?_⟩
  rintro rfl
  obtain ⟨l, hl⟩ := p.exists_diagnosed x
  exact hp.complaints_eq hx hl ▸ hl

end Program

/-! ### The problems of a search -/

namespace Analysis

/-- There is one list of what is wrong for each method, and it depends on nothing but the program. Whatever a search
    starts from, and with either algorithm, its problems are the lists of its nodes, in the order of the nodes, and no
    method has two nodes. -/
theorem run_problems (p : Program) (hp : p.Finalized) :
    ∃ diagnosis : MethodId → List (ProblemKind × String),
      (∀ m x l, p.methods[m]? = some x → (p.Diagnosed x l ↔ l = diagnosis m)) ∧
      ∀ (a : Algorithm) (seeds : List MethodId),
        let found := (run (.ofProgram p a) seeds).scan
        found.problems = found.graph.nodes.flatMap (fun n => (diagnosis n.method).map fun c => ⟨c.1, n.method, c.2⟩) ∧
        (found.graph.nodes.map (·.method)).Nodup ∧ ∀ n ∈ found.graph.nodes, p.HasBody n.method := by
  refine ⟨fun m => (p.methods[m]?.map p.complaints).getD [], fun m x l hx => ?_, fun a seeds => ?_⟩
  · simp only [hp.diagnosed_iff hx, hx, Option.map_some, Option.getD_some]
  · have hkept := run_kept (.ofProgram p a) seeds
    refine ⟨?_, hkept.distinct, fun n hn => hkept.bodied n.method (List.mem_map_of_mem hn)⟩
    rw [hkept.problems, Scan.looked, List.flatMap_map]
    refine List.flatMap_congr fun n _ => ?_
    rw [Scan.problemsOf, Effect.flatMap_problems, Scan.effectsOf]
    show _ = List.map _ ((p.methods[n.method]?.map p.complaints).getD [])
    cases hx : p.methods[n.method]? with
    | none => simp [Dispatch.ofProgram, hx]
    | some x => simp [Dispatch.ofProgram, hx, Program.complaints]

/-- A method that names a missing method twice, three methods with continuations, of which one is driven, one is not and
    one has no type, and a method that is found only when a virtual call is resolved again. -/
def relays : List Program.Edit := [
  .addModule "App.dll",
  .addType 0 { name := "Host" } none,
  .addType 0 { name := "Steps" } none,
  .addType 0 { name := "Bare" } none,
  .addType 0 { name := "Job", isAbstract := true } none,
  .addType 0 { name := "Task", baseName := "Job" } none,
  .addMethod 0 { name := "Main", body := some [
    .onMethod .callvirt { owner := "Job", name := "Run" }, .onMethod .call { owner := "Host", name := "Gone" },
    .onMethod .call { owner := "Host", name := "First" }, .onMethod .call { owner := "Host", name := "Second" },
    .onMethod .call { owner := "Host", name := "Third" }, .onMethod .newobj { owner := "Task", name := ".ctor" },
    .onMethod .call { owner := "Host", name := "Gone" }] },
  .addMethod 0 { name := "First", continuation := some ⟨.async, "Steps"⟩,
                 body := some [.onMethod .call { owner := "Host", name := "Gone" }] },
  .addMethod 0 { name := "Second", continuation := some ⟨.iterator, "Bare"⟩, body := some [.onType .newarr "Ghost"] },
  .addMethod 0 { name := "Third", continuation := some ⟨.async, "Nowhere"⟩, body := some [] },
  .addMethod 1 { name := "MoveNext", body := some [] },
  .addMethod 3 { name := "Run", isVirtual := true, isAbstract := true, isNewSlot := true },
  .addMethod 4 { name := "Run", isVirtual := true, body := some [.onType .initobj "Ghost"] },
  .addMethod 4 { name := ".ctor", body := some [] }]

theorem run_problems_relays :
    let p := (relays.foldl Program.edit {}).finalize
    let found := (run (.ofProgram p .rta) [0]).scan
    p.Finalized ∧ found.graph.nodes.map (·.method) = [0, 1, 2, 3, 7, 4, 6] ∧
    found.problems = [
      ⟨.unresolvedMethod, 0, "System.Void Host::Gone()"⟩, ⟨.unresolvedMethod, 0, "System.Void Host::Gone()"⟩,
      ⟨.missingDriver, 2, "Bare"⟩, ⟨.unresolvedType, 2, "Ghost"⟩, ⟨.unresolvedType, 3, "Nowhere"⟩,
      ⟨.unresolvedType, 6, "Ghost"⟩] ∧
    ∃ diagnosis : MethodId → List (ProblemKind × String),
      (∀ m x l, p.methods[m]? = some x → (p.Diagnosed x l ↔ l = diagnosis m)) ∧
      found.problems = found.graph.nodes.flatMap fun n => (diagnosis n.method).map fun c => ⟨c.1, n.method, c.2⟩ := by
  intro p found
  have hfinal : p.Finalized := ⟨relays, by decide +kernel, rfl⟩
  obtain ⟨diagnosis, hiff, hrun⟩ := run_problems p hfinal
  exact ⟨hfinal, by decide +kernel, by decide +kernel, diagnosis, hiff, (hrun .rta [0]).1⟩

end Analysis

end CallGraphs
