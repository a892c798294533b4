import CallGraphs.Scan.State

/-! The scanning rules, as relations between a method and what looking at it brings to light: the methods it
    calls directly, the types it creates and the virtual calls it makes. Each constructor is one rule. A stub
    that hands over to the driver of its continuation type falls under the handover rules alone; every other
    method falls under one rule for each kind of instruction. The effects of a method, which the search runs
    through, are exactly what the rules derive. -/

namespace CallGraphs.Program

/-- The position holds a method with a body. -/
def HasBody (p : Program) (m : MethodId) : Prop := ∃ x, p.methods[m]? = some x ∧ x.body.isSome = true

/-- The position holds a method that can drive a continuation: it is named `MoveNext` and has a body. -/
def Drives (p : Program) (m : MethodId) : Prop :=
  ∃ x, p.methods[m]? = some x ∧ x.name = "MoveNext" ∧ x.body.isSome = true

/-- The first method of the type `t` that can drive a continuation is `driver`. -/
def FirstDriver (p : Program) (t : TypeId) (driver : MethodId) : Prop :=
  ∃ ty before after, p.types[t]? = some ty ∧ ty.methods = before ++ driver :: after ∧ p.Drives driver ∧
    ∀ m ∈ before, ¬ p.Drives m

/-- A stub of a state machine whose continuation type `t` is bound and has a driver. -/
def HandsOver (p : Program) (m : MethodId) (t : TypeId) (driver : MethodId) : Prop :=
  ∃ x, p.methods[m]? = some x ∧ x.continuation.isSome = true ∧ x.continuationType = some t ∧
    p.FirstDriver t driver

/-- An instruction of a method that does not hand over. -/
def Performs (p : Program) (m : MethodId) (i : Instruction) : Prop :=
  (¬ ∃ t driver, p.HandsOver m t driver) ∧ ∃ x body, p.methods[m]? = some x ∧ x.body = some body ∧ i ∈ body

/-- The method `m` calls the method `c` directly. -/
inductive Calls (p : Program) (m : MethodId) : MethodId → Prop
  | handover {t : TypeId} {c : MethodId} : p.HandsOver m t c → Calls p m c
  | call {r : MethodRef} {c : MethodId} :
      p.Performs m (.onMethod .call r) → p.resolve? r = some c → Calls p m c
  | ldftn {r : MethodRef} {c : MethodId} :
      p.Performs m (.onMethod .ldftn r) → p.resolve? r = some c → Calls p m c
  | newobj {r : MethodRef} {c : MethodId} :
      p.Performs m (.onMethod .newobj r) → p.resolve? r = some c → Calls p m c

/-- The method `m` brings values of the type `t` into being. -/
inductive Creates (p : Program) (m : MethodId) : TypeId → Prop
  | handover {t : TypeId} {c : MethodId} : p.HandsOver m t c → Creates p m t
  | newobj {r : MethodRef} {c : MethodId} {t : TypeId} :
      p.Performs m (.onMethod .newobj r) → p.resolve? r = some c → p.typeNamed? r.owner = some t →
      Creates p m t
  | constructor {r : MethodRef} {c : MethodId} {x : MethodDef} :
      p.Performs m (.onMethod .call r) → p.resolve? r = some c → p.methods[c]? = some x →
      x.name = ".ctor" → p.isValueType x.owner = true → Creates p m x.owner
  | value {op : TypeOp} {name : String} {t : TypeId} :
      p.Performs m (.onType op name) → p.typeNamed? name = some t → p.isValueType t = true →
      Creates p m t

/-- The method `m` makes a virtual call that names the method `t`. -/
inductive Dispatches (p : Program) (m : MethodId) : MethodId → Prop
  | callvirt {r : MethodRef} {t : MethodId} :
      p.Performs m (.onMethod .callvirt r) → p.resolve? r = some t → Dispatches p m t
  | ldvirtftn {r : MethodRef} {t : MethodId} :
      p.Performs m (.onMethod .ldvirtftn r) → p.resolve? r = some t → Dispatches p m t

/-! ### Effects of a method and of an instruction -/

theorem drives_iff {p : Program} {m : MethodId} :
    (p.methods[m]?.map fun x => x.name == "MoveNext" && x.hasBody).getD false = true ↔ p.Drives m := by
  cases hx : p.methods[m]? with
  | none => simp [Drives, hx]
  | some x => simp [Drives, hx, MethodDecl.hasBody]

/-- The driver that is looked up is the first one. -/
theorem driver?_eq_some {p : Program} {t : TypeId} {driver : MethodId} :
    p.driver? t = some driver ↔ p.FirstDriver t driver := by
  rw [driver?, firstMethod?, Option.bind_eq_some_iff]
  simp only [List.find?_eq_some_iff_append, drives_iff, Bool.not_eq_true', FirstDriver]
  constructor
  · rintro ⟨ty, hty, hdriver, before, after, hmethods, hbefore⟩
    exact ⟨ty, before, after, hty, hmethods, hdriver, fun m hm => by
      rw [← drives_iff, hbefore m hm]
      decide⟩
  · rintro ⟨ty, before, after, hty, hmethods, hdriver, hbefore⟩
    exact ⟨ty, hty, hdriver, before, after, hmethods, fun m hm => by
      rw [← Bool.not_eq_true, drives_iff]
      exact hbefore m hm⟩

theorem handsOver_unique {p : Program} {m : MethodId} {t t' : TypeId} {c c' : MethodId}
    (h : p.HandsOver m t c) (h' : p.HandsOver m t' c') : t = t' ∧ c = c' := by
  obtain ⟨x, hx, -, ht, hc⟩ := h
  obtain ⟨x', hx', -, ht', hc'⟩ := h'
  obtain rfl : x = x' := by simpa [hx] using hx'
  obtain rfl : t = t' := by simpa [ht] using ht'
  rw [← driver?_eq_some] at hc hc'
  exact ⟨rfl, by simpa [hc] using hc'⟩

/-- A stub that hands over has the effects of the handover and no others. -/
theorem effectsOf_of_handsOver {p : Program} {m : MethodId} {t : TypeId} {c : MethodId}
    (h : p.HandsOver m t c) :
    Scan.effectsOf p m =
      [.note (.trace s!"  continuation: {p.methodName c}"), .construct t, .call c] := by
  obtain ⟨x, hx, hk, ht, hc⟩ := h
  obtain ⟨k, hk⟩ := Option.isSome_iff_exists.mp hk
  simp [Scan.effectsOf, hx, effects, hk, ht, driver?_eq_some.mpr hc]

/-- Any other method has the effects of its body; in front of them there is at most a problem. -/
theorem effectsOf_of_not_handsOver {p : Program} {m : MethodId} {x : MethodDef}
    (hx : p.methods[m]? = some x) (h : ¬ ∃ t c, p.HandsOver m t c) :
    ∃ front, Scan.effectsOf p m = front ++ p.bodyEffects x ∧
      ∀ e ∈ front, ∃ kind text, e = .problem kind text := by
  have heff : Scan.effectsOf p m = p.effects x := by simp [Scan.effectsOf, hx]
  rw [heff, effects]
  cases hk : x.continuation with
  | none => exact ⟨[], rfl, by simp⟩
  | some k =>
    cases ht : x.continuationType with
    | none => exact ⟨[.problem .unresolvedType k.typeName], rfl, by simp⟩
    | some t =>
      cases hc : p.driver? t with
      | none => exact ⟨[.problem .missingDriver k.typeName], by simp [hc], by simp⟩
      | some c => exact absurd ⟨t, c, x, hx, by simp [hk], ht, driver?_eq_some.mp hc⟩ h

/-- An effect that is no problem and no notice comes from a handover or from an instruction. -/
theorem mem_effectsOf {p : Program} {m : MethodId} {e : Effect}
    (hnote : ∀ n, e ≠ .note n) (hproblem : ∀ kind text, e ≠ .problem kind text) :
    e ∈ Scan.effectsOf p m ↔
      (∃ t c, p.HandsOver m t c ∧ (e = .construct t ∨ e = .call c)) ∨
        ∃ i, p.Performs m i ∧ e ∈ p.instructionEffects i := by
  by_cases h : ∃ t c, p.HandsOver m t c
  · -- the body of a stub that hands over contributes nothing
    obtain ⟨t, c, hto⟩ := h
    rw [effectsOf_of_handsOver hto]
    constructor
    · intro he
      simp only [List.mem_cons, List.not_mem_nil, or_false] at he
      exact .inl ⟨t, c, hto, he.resolve_left (hnote _)⟩
    · rintro (⟨t', c', hto', he⟩ | ⟨i, hi, -⟩)
      · obtain ⟨rfl, rfl⟩ := handsOver_unique hto hto'
        rcases he with rfl | rfl <;> simp
      · exact absurd ⟨t, c, hto⟩ hi.1
  · constructor
    · intro he
      refine .inr ?_
      cases hx : p.methods[m]? with
      | none => simp [Scan.effectsOf, hx] at he
      | some x =>
        obtain ⟨front, heq, hfront⟩ := effectsOf_of_not_handsOver hx h
        rw [heq, List.mem_append] at he
        rcases he with he | he
        · obtain ⟨kind, text, heq⟩ := hfront e he
          exact absurd heq (hproblem kind text)
        · obtain ⟨i, hi, he⟩ := List.mem_flatMap.mp he
          cases hb : x.body with
          | none => simp [hb] at hi
          | some body => exact ⟨i, ⟨h, x, body, hx, hb, by simpa [hb] using hi⟩, he⟩
    · rintro (⟨t, c, hto, -⟩ | ⟨i, ⟨-, x, body, hx, hb, hi⟩, he⟩)
      · exact absurd ⟨t, c, hto⟩ h
      · obtain ⟨front, heq, -⟩ := effectsOf_of_not_handsOver hx h
        rw [heq, List.mem_append]
        exact .inr (List.mem_flatMap.mpr ⟨i, by simpa [hb] using hi, he⟩)

theorem mem_constructedByCall {p : Program} {c : MethodId} {e : Effect} :
    e ∈ p.constructedByCall c ↔ ∃ x, p.methods[c]? = some x ∧ x.name = ".ctor" ∧
      p.isValueType x.owner = true ∧ e = .construct x.owner := by
  unfold constructedByCall
  cases hx : p.methods[c]? with
  | none => simp
  | some x =>
    by_cases h : x.name = ".ctor" ∧ p.isValueType x.owner = true
    · simp [h]
    · simp only [Bool.and_eq_true, beq_iff_eq, if_neg h, List.not_mem_nil, false_iff]
      rintro ⟨x', hx', hname, hvalue, -⟩
      obtain rfl : x = x' := by simpa using hx'
      exact h ⟨hname, hvalue⟩

theorem mem_instructionEffects_onMethod {p : Program} {op : MethodOp} {r : MethodRef} {e : Effect}
    (hnote : ∀ n, e ≠ .note n) (hproblem : ∀ kind text, e ≠ .problem kind text) :
    e ∈ p.instructionEffects (.onMethod op r) ↔
      ∃ c, p.resolve? r = some c ∧ e ∈ p.methodEffects op r c := by
  cases hr : p.resolve? r <;> simp [instructionEffects, hr, hnote, hproblem]

theorem mem_instructionEffects_onType {p : Program} {op : TypeOp} {name : String} {e : Effect}
    (hproblem : ∀ kind text, e ≠ .problem kind text) :
    e ∈ p.instructionEffects (.onType op name) ↔
      ∃ t, p.typeNamed? name = some t ∧ p.isValueType t = true ∧ e = .construct t := by
  cases ht : p.typeNamed? name with
  | none => simp [instructionEffects, ht, hproblem]
  | some t => cases hv : p.isValueType t <;> simp [instructionEffects, ht, hv]

/-! ### The rules derive the effects -/

theorem call_mem_effectsOf {p : Program} {m c : MethodId} :
    .call c ∈ Scan.effectsOf p m ↔ p.Calls m c := by
  rw [mem_effectsOf (by simp) (by simp)]
  constructor
  · rintro (⟨t, c', hto, he⟩ | ⟨i, hi, he⟩)
    · obtain rfl : c = c' := by simpa using he
      exact .handover hto
    · cases i with
      | other => simp [instructionEffects] at he
      | onType op name => simp [mem_instructionEffects_onType] at he
      | onMethod op r =>
        obtain ⟨c', hr, he⟩ := (mem_instructionEffects_onMethod (by simp) (by simp)).mp he
        cases op <;> simp [methodEffects, mem_constructedByCall] at he <;> subst he
        · exact .call hi hr
        · exact .ldftn hi hr
        · exact .newobj hi hr
  · intro h
    cases h with
    | @handover t _ hto => exact .inl ⟨t, c, hto, .inr rfl⟩
    | @call r _ hi hr => exact .inr ⟨_, hi, by simp [instructionEffects, hr, methodEffects]⟩
    | @ldftn r _ hi hr => exact .inr ⟨_, hi, by simp [instructionEffects, hr, methodEffects]⟩
    | @newobj r _ hi hr => exact .inr ⟨_, hi, by simp [instructionEffects, hr, methodEffects]⟩

theorem construct_mem_effectsOf {p : Program} {m : MethodId} {t : TypeId} :
    .construct t ∈ Scan.effectsOf p m ↔ p.Creates m t := by
  rw [mem_effectsOf (by simp) (by simp)]
  constructor
  · rintro (⟨t', c, hto, he⟩ | ⟨i, hi, he⟩)
    · obtain rfl : t = t' := by simpa using he
      exact .handover hto
    · cases i with
      | other => simp [instructionEffects] at he
      | onType op name =>
        obtain ⟨t', ht, hv, he⟩ := (mem_instructionEffects_onType (by simp)).mp he
        obtain rfl : t = t' := by simpa using he
        exact .value hi ht hv
      | onMethod op r =>
        obtain ⟨c, hr, he⟩ := (mem_instructionEffects_onMethod (by simp) (by simp)).mp he
        cases op with
        | call =>
          simp only [methodEffects, List.mem_append, mem_constructedByCall] at he
          rcases he with ⟨x, hx, hname, hv, he⟩ | he
          · obtain rfl : t = x.owner := by simpa using he
            exact .constructor hi hr hx hname hv
          · simp at he
        | newobj =>
          obtain ht : p.typeNamed? r.owner = some t := by simpa [methodEffects] using he
          exact .newobj hi hr ht
        | _ => simp [methodEffects] at he
  · intro h
    cases h with
    | @handover _ c hto => exact .inl ⟨t, c, hto, .inl rfl⟩
    | @newobj r c _ hi hr ht => exact .inr ⟨_, hi, by simp [instructionEffects, hr, methodEffects, ht]⟩
    | @constructor r c x hi hr hx hname hv =>
      refine .inr ⟨_, hi, (mem_instructionEffects_onMethod (by simp) (by simp)).mpr ⟨c, hr, ?_⟩⟩
      exact List.mem_append_left _ (mem_constructedByCall.mpr ⟨x, hx, hname, hv, rfl⟩)
    | @value op name _ hi ht hv =>
      exact .inr ⟨_, hi, (mem_instructionEffects_onType (by simp)).mpr ⟨t, ht, hv, rfl⟩⟩

theorem dispatch_mem_effectsOf {p : Program} {m t : MethodId} :
    .dispatch t ∈ Scan.effectsOf p m ↔ p.Dispatches m t := by
  rw [mem_effectsOf (by simp) (by simp)]
  constructor
  · rintro (⟨t', c, hto, he⟩ | ⟨i, hi, he⟩)
    · simp at he
    · cases i with
      | other => simp [instructionEffects] at he
      | onType op name => simp [mem_instructionEffects_onType] at he
      | onMethod op r =>
        obtain ⟨t', hr, he⟩ := (mem_instructionEffects_onMethod (by simp) (by simp)).mp he
        cases op <;> simp [methodEffects, mem_constructedByCall] at he <;> subst he
        · exact .callvirt hi hr
        · exact .ldvirtftn hi hr
  · intro h
    cases h with
    | @callvirt r _ hi hr => exact .inr ⟨_, hi, by simp [instructionEffects, hr, methodEffects]⟩
    | @ldvirtftn r _ hi hr => exact .inr ⟨_, hi, by simp [instructionEffects, hr, methodEffects]⟩

/-! ### What the rules lead to is part of the program -/

theorem typeNamed?_lt {p : Program} {name : String} {t : TypeId} (h : p.typeNamed? name = some t) :
    t < p.types.size := (Array.findIdx?_eq_some_iff_getElem.mp h).1

theorem isValueType_lt {p : Program} {t : TypeId} (h : p.isValueType t = true) : t < p.types.size := by
  refine Nat.lt_of_not_le fun hle => ?_
  simp [isValueType, Array.getElem?_eq_none hle] at h

theorem firstMethod?_eq_some {p : Program} {t : TypeId} {test : MethodDef → Bool} {m : MethodId}
    (h : p.firstMethod? t test = some m) :
    ∃ ty x, p.types[t]? = some ty ∧ m ∈ ty.methods ∧ p.methods[m]? = some x ∧ test x = true := by
  obtain ⟨ty, hty, hm⟩ := Option.bind_eq_some_iff.mp h
  have htest := List.find?_some hm
  cases hx : p.methods[m]? with
  | none => simp [hx] at htest
  | some x => exact ⟨ty, x, hty, List.mem_of_find?_eq_some hm, rfl, by simpa [hx] using htest⟩

/-- A created type is a type of the program. -/
theorem Creates.lt {p : Program} {m : MethodId} {t : TypeId} (h : p.Creates m t) : t < p.types.size := by
  cases h with
  | handover hto =>
    obtain ⟨x, -, -, -, ty, -, -, hty, -⟩ := hto
    exact (Array.getElem?_eq_some_iff.mp hty).1
  | newobj _ _ ht => exact typeNamed?_lt ht
  | constructor _ _ _ _ hv => exact isValueType_lt hv
  | value _ _ hv => exact isValueType_lt hv

end CallGraphs.Program
