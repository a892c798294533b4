import CallGraphs.Proofs.FirstDefinitions

/-! What the objects of a description say, member by member. A text, list or flag that is left out has a default value,
    and so has a text of another kind. For each kind of object there is a relation to what is declared by it, given by
    the members alone; reading gives nothing but what stands in this relation to the object (`declaresType_of_decode`,
    `declaresMethod_of_decode`). So every module, type and method of a program has the fields that the text gives it
    (`Describes.declared`). -/

namespace CallGraphs

open Json (Object)

/-! ### Words -/

/-- The words for a visibility, in small letters. -/
def Visibility.words : Visibility → List String
  | .privateAccess => ["private"]
  | .familyAndAssembly => ["famandassem", "private protected"]
  | .assembly => ["assembly", "internal"]
  | .family => ["family", "protected"]
  | .familyOrAssembly => ["famorassem", "protected internal"]
  | .publicAccess => ["public"]

theorem Visibility.lower_mem_words {word : String} {v : Visibility} (h : ofWord? word = some v) :
    Text.lower word ∈ v.words := by
  unfold ofWord? at h
  split at h <;> first | (obtain rfl := Option.some.inj h; simp [words, *]) | simp at h

theorem ContinuationKind.lower_eq_word {word : String} {kind : ContinuationKind} (h : ofWord? word = some kind) :
    Text.lower word = kind.word := by
  unfold ofWord? at h
  split at h <;> first | (obtain rfl := Option.some.inj h; simp [ContinuationKind.word, *]) | simp at h

theorem Opcode.lower_eq_word {word : String} {op : Opcode} (h : ofWord word = op) :
    match op with
    | .onMethod op => Text.lower word = op.word
    | .onType op => Text.lower word = op.word
    | .other => (∀ op : MethodOp, Text.lower word ≠ op.word) ∧ ∀ op : TypeOp, Text.lower word ≠ op.word := by
  unfold ofWord at h
  split at h <;> subst h
  case h_8 => exact ⟨fun op => by cases op <;> assumption, fun op => by cases op <;> assumption⟩
  all_goals assumption

namespace Description

/-! ### Members -/

/-- The text under a key is `s`; without a text there, `s` is the default. -/
def TextOr (o : Object) (key default s : String) : Prop :=
  Object.get? o key = some (.str s) ∨ (∀ w, Object.get? o key ≠ some (.str w)) ∧ s = default

/-- The list under a key holds these texts; a list that is left out is empty. -/
def TextsOf (o : Object) (key : String) (l : List String) : Prop :=
  Object.get? o key = some (.arr (l.map .str)) ∨ Object.get? o key = none ∧ l = []

/-- The flag under a key is `b`; a flag that is left out is not set. -/
def FlagOf (o : Object) (key : String) (b : Bool) : Prop :=
  Object.get? o key = some (.bool b) ∨ Object.get? o key = none ∧ b = false

/-! ### Declarations -/

/-- The object refers to a method. -/
structure Refers (o : Object) (r : MethodRef) : Prop where
  owner : Object.get? o "DeclaringType" = some (.str r.owner)
  name : Object.get? o "Name" = some (.str r.name)
  params : TextsOf o "Parameters" r.params
  result : TextOr o "ReturnType" "System.Void" r.result

/-- The object is an instruction. -/
inductive Instructs (o : Object) : Instruction → Prop
  | onMethod {word : String} {op : MethodOp} {r : Object} {target : MethodRef} :
      Object.get? o "OpCode" = some (.str word) → Text.lower word = op.word →
      Object.get? o "Method" = some (.obj r) → Refers r target → Instructs o (.onMethod op target)
  | onType {word : String} {op : TypeOp} {typeName : String} :
      Object.get? o "OpCode" = some (.str word) → Text.lower word = op.word →
      Object.get? o "Type" = some (.str typeName) → Instructs o (.onType op typeName)
  | other {word : String} :
      Object.get? o "OpCode" = some (.str word) → (∀ op : MethodOp, Text.lower word ≠ op.word) →
      (∀ op : TypeOp, Text.lower word ≠ op.word) → Instructs o .other

/-- The object has a state machine, or none. -/
def Continues (o : Object) : Option Continuation → Prop
  | none => ∀ m, Object.get? o "StateMachine" ≠ some (.obj m)
  | some c => ∃ m word, Object.get? o "StateMachine" = some (.obj m) ∧ Object.get? m "Kind" = some (.str word) ∧
      Text.lower word = c.kind.word ∧ Object.get? m "Type" = some (.str c.typeName)

/-- The object has a body of these instructions, or none. -/
def HasInstructions (o : Object) : Option (List Instruction) → Prop
  | none => Object.get? o "Body" = none
  | some body => ∃ items, Object.get? o "Body" = some (.arr items) ∧
      List.Forall₂ (fun x i => ∃ o', x = .obj o' ∧ Instructs o' i) items body

/-- The object declares a method. -/
structure DeclaresMethod (o : Object) (m : MethodDecl) : Prop where
  name : Object.get? o "Name" = some (.str m.name) ∧ m.name ≠ ""
  params : TextsOf o "Parameters" m.params
  result : TextOr o "ReturnType" "System.Void" m.result
  visibility : (∃ word, Object.get? o "Visibility" = some (.str word) ∧ Text.lower word ∈ m.visibility.words) ∨
    (∀ word, Object.get? o "Visibility" ≠ some (.str word)) ∧ m.visibility = .privateAccess
  isStatic : FlagOf o "IsStatic" m.isStatic
  isVirtual : FlagOf o "IsVirtual" m.isVirtual
  isAbstract : FlagOf o "IsAbstract" m.isAbstract
  isNewSlot : FlagOf o "IsNewSlot" m.isNewSlot
  isGetter : FlagOf o "IsGetter" m.isGetter
  isSetter : FlagOf o "IsSetter" m.isSetter
  overrides : List.Forall₂ (fun x r => ∃ o', x = .obj o' ∧ Refers o' r) (Object.items o "Overrides") m.overrides
  continuation : Continues o m.continuation
  body : HasInstructions o m.body

/-- The object declares a type. The namespace is left open, as a nested type has that of the type around it. -/
structure DeclaresType (o : Object) (t : TypeDecl) : Prop where
  name : Object.get? o "Name" = some (.str t.name) ∧ t.name ≠ ""
  isAbstract : FlagOf o "IsAbstract" t.isAbstract
  isInterface : FlagOf o "IsInterface" t.isInterface
  isValueType : FlagOf o "IsValueType" t.isValueType
  baseName : TextOr o "BaseType" "" t.baseName
  interfaceNames : TextsOf o "Interfaces" t.interfaceNames

/-- The object declares a module of a name, with an entry point or none. -/
structure DeclaresModule (o : Object) (name : String) (entry : Option MethodRef) : Prop where
  name : Object.get? o "Name" = some (.str name) ∧ name ≠ ""
  entry : match entry with
    | none => ∀ r, Object.get? o "EntryPoint" ≠ some (.obj r)
    | some ref => ∃ r, Object.get? o "EntryPoint" = some (.obj r) ∧ Refers r ref

/-! ### Reading member by member -/

variable {o : Object} {key : String} {place : Place}

theorem text?_eq_some {s : String} : Object.text? o key = some s ↔ Object.get? o key = some (.str s) := by
  unfold Object.text?
  split
  · rename_i s' hget
    simp [hget]
  · rename_i hget
    simp only [reduceCtorEq, false_iff]
    exact hget s

theorem object?_eq_some {r : Object} : Object.object? o key = some r ↔ Object.get? o key = some (.obj r) := by
  unfold Object.object?
  split
  · rename_i r' hget
    simp [hget]
  · rename_i hget
    simp only [reduceCtorEq, false_iff]
    exact hget r

theorem name?_eq_some {s : String} : Object.name? o key = some s ↔ Object.get? o key = some (.str s) ∧ s ≠ "" := by
  rw [Object.name?, Option.filter_eq_some_iff, text?_eq_some, bne_iff_ne]

theorem textOr_of_getD {default s : String} (h : (Object.text? o key).getD default = s) : TextOr o key default s := by
  cases htext : Object.text? o key with
  | some w =>
    rw [htext] at h
    exact .inl (text?_eq_some.mp (htext.trans (congrArg some h)))
  | none =>
    rw [htext] at h
    exact .inr ⟨fun w hw => by simp [text?_eq_some.mpr hw] at htext, h.symm⟩

theorem textsOf_of_decode {l : List String} (h : decodeStrings o key place = .ok l) : TextsOf o key l := by
  unfold decodeStrings at h
  split at h
  · rename_i hget
    exact .inr ⟨hget, (Except.ok.inj h).symm⟩
  · rename_i items hget
    have hitems : List.Forall₂ (fun x s => x = Json.str s) items l := by
      refine (forall₂_of_mapM_ok h).imp fun x s hx => ?_
      cases x <;> simp_all
    rw [← List.forall₂_map_right_iff (R := Eq), List.forall₂_eq_eq_eq] at hitems
    exact .inl (hitems ▸ hget)
  · simp at h

theorem flagOf_of_decode {b : Bool} (h : decodeFlag o key place = .ok b) : FlagOf o key b := by
  unfold decodeFlag at h
  split at h
  · rename_i hget
    exact .inr ⟨hget, (Except.ok.inj h).symm⟩
  · rename_i b' hget
    exact .inl (Except.ok.inj h ▸ hget)
  · simp at h

/-! ### Reading declarations -/

theorem refers_of_decode {r : MethodRef} (h : MethodRef.decode o place = .ok r) : Refers o r := by
  obtain ⟨howner, hname, hparams, hresult⟩ := MethodRef.decode_ok h
  exact ⟨text?_eq_some.mp howner, text?_eq_some.mp hname, textsOf_of_decode hparams, textOr_of_getD hresult⟩

theorem instructs_of_decode {owner name : String} {i : Instruction} (h : Instruction.decode o owner name = .ok i) :
    Instructs o i := by
  obtain ⟨word, hword, hoperand⟩ := Instruction.decode_ok h
  rw [text?_eq_some] at hword
  cases hop : Opcode.ofWord word with
  | onMethod op =>
    simp only [hop] at hoperand
    obtain ⟨r, place, ref, hr, href, rfl⟩ := hoperand
    exact .onMethod hword (Opcode.lower_eq_word hop) (object?_eq_some.mp hr) (refers_of_decode href)
  | onType op =>
    simp only [hop] at hoperand
    obtain ⟨t, ht, rfl⟩ := hoperand
    exact .onType hword (Opcode.lower_eq_word hop) (text?_eq_some.mp ht)
  | other =>
    simp only [hop] at hoperand
    obtain rfl := hoperand
    exact .other hword (Opcode.lower_eq_word hop).1 (Opcode.lower_eq_word hop).2

theorem visibility_of_decode {v : Visibility} (h : decodeVisibility o place = .ok v) :
    (∃ word, Object.get? o "Visibility" = some (.str word) ∧ Text.lower word ∈ v.words) ∨
      (∀ word, Object.get? o "Visibility" ≠ some (.str word)) ∧ v = .privateAccess := by
  unfold decodeVisibility at h
  split at h
  · rename_i hnone
    exact .inr ⟨fun word hword => by simp [text?_eq_some.mpr hword] at hnone, (Except.ok.inj h).symm⟩
  · rename_i word hword
    split at h
    · rename_i v' hv
      obtain rfl := Except.ok.inj h
      exact .inl ⟨word, text?_eq_some.mp hword, Visibility.lower_mem_words hv⟩
    · simp at h

theorem overrides_of_decode {owner name : String} {l : List MethodRef} (h : decodeOverrides o owner name = .ok l) :
    List.Forall₂ (fun x r => ∃ o', x = .obj o' ∧ Refers o' r) (Object.items o "Overrides") l := by
  refine (forall₂_of_mapM_ok h).imp fun x r hx => ?_
  cases x with
  | obj o' => exact ⟨o', rfl, refers_of_decode hx⟩
  | _ => simp at hx

theorem continues_of_decode {c : Option Continuation} (h : decodeContinuation o place = .ok c) : Continues o c := by
  unfold decodeContinuation at h
  split at h
  · rename_i hnone
    obtain rfl := Except.ok.inj h
    exact fun m hm => by simp [object?_eq_some.mpr hm] at hnone
  · rename_i m hm
    split at h
    · rename_i word typeName hword htype
      split at h
      · rename_i kind hkind
        obtain rfl := Except.ok.inj h
        exact ⟨m, word, object?_eq_some.mp hm, text?_eq_some.mp hword, ContinuationKind.lower_eq_word hkind,
          text?_eq_some.mp htype⟩
      · simp at h
    · simp at h

theorem hasInstructions_of_decode {owner name : String} {b : Option (List Instruction)}
    (h : decodeBody o owner name = .ok b) : HasInstructions o b := by
  unfold decodeBody at h
  split at h
  · rename_i hnone
    obtain rfl := Except.ok.inj h
    exact hnone
  · rename_i items hitems
    simp only [bind_eq_ok, pure_eq_ok] at h
    obtain ⟨body, hbody, rfl⟩ := h
    refine ⟨items, hitems, (forall₂_of_mapM_ok hbody).imp fun x i hx => ?_⟩
    cases x with
    | obj o' => exact ⟨o', rfl, instructs_of_decode hx⟩
    | _ => simp at hx
  · simp at h

theorem declaresMethod_of_decode {owner : String} {m : MethodDecl} (h : MethodDecl.decode o owner = .ok m) :
    DeclaresMethod o m := by
  obtain ⟨hname, hresult, hparams, hvisibility, ⟨hstatic, hvirtual, habstract, hnewSlot, hgetter, hsetter⟩, hoverrides,
    hcontinuation, hbody⟩ := MethodDecl.decode_ok h
  exact {
    name := name?_eq_some.mp hname
    params := textsOf_of_decode hparams
    result := textOr_of_getD hresult
    visibility := visibility_of_decode hvisibility
    isStatic := flagOf_of_decode hstatic
    isVirtual := flagOf_of_decode hvirtual
    isAbstract := flagOf_of_decode habstract
    isNewSlot := flagOf_of_decode hnewSlot
    isGetter := flagOf_of_decode hgetter
    isSetter := flagOf_of_decode hsetter
    overrides := overrides_of_decode hoverrides
    continuation := continues_of_decode hcontinuation
    body := hasInstructions_of_decode hbody }

theorem declaresType_of_decode {t : TypeDecl} (h : TypeDecl.decode o = .ok t) : DeclaresType o t := by
  obtain ⟨hname, -, hbase, habstract, hinterface, hvalue, hinterfaces⟩ := TypeDecl.decode_ok h
  exact {
    name := name?_eq_some.mp hname
    isAbstract := flagOf_of_decode habstract
    isInterface := flagOf_of_decode hinterface
    isValueType := flagOf_of_decode hvalue
    baseName := textOr_of_getD hbase
    interfaceNames := textsOf_of_decode hinterfaces }

theorem declaresModule_of_headOf? {x : Json} {head : String × Option MethodRef} (h : headOf? x = some head) :
    ∃ o, x = .obj o ∧ DeclaresModule o head.1 head.2 := by
  obtain ⟨name, hname, h⟩ := Option.bind_eq_some_iff.mp h
  obtain ⟨entry, hentry, rfl⟩ := Option.map_eq_some_iff.mp h
  cases x with
  | obj o =>
    refine ⟨o, rfl, name?_eq_some.mp hname, ?_⟩
    rw [Json.members] at hentry
    cases hr : Object.object? o "EntryPoint" with
    | none =>
      rw [hr] at hentry
      obtain rfl : none = entry := Option.some.inj hentry
      exact fun r hget => by simp [object?_eq_some.mpr hget] at hr
    | some r =>
      rw [hr, Option.mapM_some, toOption_eq_some, map_eq_pure_bind, bind_eq_ok] at hentry
      obtain ⟨ref, href, hentry⟩ := hentry
      obtain rfl := pure_eq_ok.mp hentry
      exact ⟨r, object?_eq_some.mp hr, refers_of_decode href⟩
  | _ => simp [Json.members, Object.name?, Object.text?, Object.get?] at hname

/-! ### Programs -/

/-- The modules, types and methods of a program have the fields that the text gives them. -/
structure Declared (v : Json) (p : Program) : Prop where
  modules : List.Forall₂ (fun x d => ∃ o, x = .obj o ∧ DeclaresModule o d.name d.entryRef) (modules v) p.modules.toList
  types : ∀ (t : TypeId) (e : TypeEntry), (keptTypes v)[t]? = some e →
    ∃ o ty, e.value = .obj o ∧ p.types[t]? = some ty ∧ DeclaresType o ty.toTypeDecl ∧ ty.ns = e.ns ∧
      ty.fullName = e.fullName ∧ ty.moduleId = e.moduleId ∧ ty.enclosing = e.enclosing (keptTypes v)
  methods : ∀ (m : MethodId) (t : TypeId) (x : Json), (methodEntries (keptTypes v))[m]? = some (t, x) →
    ∃ o md, x = .obj o ∧ p.methods[m]? = some md ∧ DeclaresMethod o md.toMethodDecl ∧ md.owner = t

theorem Describes.declared {v : Json} {p : Program} (h : Describes v p) : Declared v p := by
  refine ⟨?_, fun t e he => ?_, fun m t x hx => ?_⟩
  · have hheads := forall₂_of_mapM_some h.modules
    rw [Program.heads, Array.toList_map, List.forall₂_map_right_iff] at hheads
    exact hheads.imp fun x d hd => declaresModule_of_headOf? hd
  · obtain ⟨o, decl, hvalue, hdecl, hidentity⟩ := h.counted.types t e he
    obtain ⟨ty, hty, heq⟩ := Option.map_eq_some_iff.mp hidentity
    obtain ⟨hdeclared, hname, hmodule, henclosing⟩ := TypeDef.Identity.mk.inj heq
    have hfields := declaresType_of_decode hdecl
    refine ⟨o, ty, hvalue, hty, hdeclared ▸ ⟨hfields.name, hfields.isAbstract, hfields.isInterface,
      hfields.isValueType, hfields.baseName, hfields.interfaceNames⟩, ?_, hname, hmodule, henclosing⟩
    exact congrArg TypeDecl.ns hdeclared
  · obtain ⟨o, decl, hvalue, hdecl, hdeclaration⟩ := h.counted.methods m t x hx
    obtain ⟨md, hmd, heq⟩ := Option.map_eq_some_iff.mp hdeclaration
    obtain ⟨rfl, rfl⟩ := Prod.mk.inj heq
    exact ⟨o, md, hvalue, hmd, declaresMethod_of_decode hdecl, rfl⟩

end Description

end CallGraphs
