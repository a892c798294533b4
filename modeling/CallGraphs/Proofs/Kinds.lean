import CallGraphs.Proofs.FirstDefinitions

/-! The kinds of values that the format gives to the members of its objects. A description that is read has values of
    the right kind under all keys whose kind is checked, in every object that the program is made from
    (`Describes.checked`). The other keys are passed over if their value is of another kind. -/

namespace CallGraphs

open Json (Object)

namespace Description

/-! ### The format -/

/-- The kinds of values. -/
inductive Kind where
  | object | array | strings | text | flag
  deriving DecidableEq

/-- Whether a value is of a kind. -/
def Kind.fits : Kind → Json → Bool
  | .object, .obj _ => true
  | .array, .arr _ => true
  | .strings, .arr items => items.all fun | .str _ => true | _ => false
  | .text, .str _ => true
  | .flag, .bool _ => true
  | _, _ => false

/-- What an object of a description tells about. -/
inductive Role where
  | module | type | method | machine | reference | instruction
  deriving DecidableEq

/-- The format of one member: its key and its kind, and whether a value of another kind is a fault. If not, such a value
    is taken for a missing one. -/
structure Rule where
  key : String
  kind : Kind
  checked : Bool

/-- The format of an object. The operand of an instruction depends on its mnemonic. -/
def rules (o : Object) : Role → List Rule
  | .module => [⟨"Name", .text, true⟩, ⟨"EntryPoint", .object, false⟩, ⟨"Types", .array, false⟩]
  | .type => [⟨"Name", .text, true⟩, ⟨"Namespace", .text, false⟩, ⟨"BaseType", .text, false⟩,
      ⟨"Interfaces", .strings, true⟩, ⟨"IsAbstract", .flag, true⟩, ⟨"IsInterface", .flag, true⟩,
      ⟨"IsValueType", .flag, true⟩, ⟨"Methods", .array, false⟩, ⟨"NestedTypes", .array, false⟩]
  | .method => [⟨"Name", .text, true⟩, ⟨"Parameters", .strings, true⟩, ⟨"ReturnType", .text, false⟩,
      ⟨"Visibility", .text, false⟩, ⟨"IsStatic", .flag, true⟩, ⟨"IsVirtual", .flag, true⟩, ⟨"IsAbstract", .flag, true⟩,
      ⟨"IsNewSlot", .flag, true⟩, ⟨"IsGetter", .flag, true⟩, ⟨"IsSetter", .flag, true⟩, ⟨"Overrides", .array, false⟩,
      ⟨"StateMachine", .object, false⟩, ⟨"Body", .array, true⟩]
  | .machine => [⟨"Kind", .text, true⟩, ⟨"Type", .text, true⟩]
  | .reference => [⟨"DeclaringType", .text, true⟩, ⟨"Name", .text, true⟩, ⟨"Parameters", .strings, true⟩,
      ⟨"ReturnType", .text, false⟩]
  | .instruction => ⟨"OpCode", .text, true⟩ ::
      match Opcode.ofWord ((Object.text? o "OpCode").getD "") with
      | .onMethod _ => [⟨"Method", .object, true⟩]
      | .onType _ => [⟨"Type", .text, true⟩]
      | .other => []

/-- The member, if there is one, has a value of the kind that the format gives it. -/
def Obeys (o : Object) (r : Rule) : Prop := ∀ w, Object.get? o r.key = some w → r.kind.fits w = true

/-! ### The objects that a program is made from -/

/-- An instruction and the reference in it. -/
def instructionObjects (x : Json) : List (Role × Object) :=
  (.instruction, x.members) ::
    match Opcode.ofWord ((Object.text? x.members "OpCode").getD "") with
    | .onMethod _ => (Object.object? x.members "Method").toList.map (.reference, ·)
    | _ => []

/-- A method and the objects in it. -/
def methodObjects (x : Json) : List (Role × Object) :=
  (.method, x.members) :: (Object.items x.members "Overrides").map (fun y => (.reference, y.members)) ++
    (Object.object? x.members "StateMachine").toList.map (.machine, ·) ++
    (Object.items x.members "Body").flatMap instructionObjects

/-- A type and the objects in it, nested types apart. -/
def typeObjects (x : Json) : List (Role × Object) :=
  (.type, x.members) :: (Object.items x.members "Methods").flatMap methodObjects

/-- A module and the reference to its entry point. -/
def moduleObjects (x : Json) : List (Role × Object) :=
  (.module, x.members) :: (Object.object? x.members "EntryPoint").toList.map (.reference, ·)

/-- The objects of a description that the program is made from: those of the modules and of the types that count. -/
def contributing (v : Json) : List (Role × Object) :=
  (modules v).flatMap moduleObjects ++ (keptTypes v).flatMap fun e => typeObjects e.value

/-! ### What is checked -/

/-- The object obeys the format as far as that is checked. -/
def Checked (x : Role × Object) : Prop := ∀ r ∈ rules x.2 x.1, r.checked = true → Obeys x.2 r

variable {o : Object} {key : String}

theorem obeys_text {s : String} {checked : Bool} (h : Object.text? o key = some s) : Obeys o ⟨key, .text, checked⟩ := by
  intro w hw
  rw [Object.text?, hw] at h
  cases w <;> simp_all [Kind.fits]

theorem obeys_object {r : Object} {checked : Bool} (h : Object.object? o key = some r) :
    Obeys o ⟨key, .object, checked⟩ := by
  intro w hw
  rw [Object.object?, hw] at h
  cases w <;> simp_all [Kind.fits]

theorem obeys_name {s : String} {checked : Bool} (h : Object.name? o key = some s) : Obeys o ⟨key, .text, checked⟩ :=
  obeys_text (Option.filter_eq_some_iff.mp h).1

theorem obeys_flag {place : Place} {b checked : Bool} (h : decodeFlag o key place = .ok b) :
    Obeys o ⟨key, .flag, checked⟩ := by
  intro w hw
  rw [decodeFlag, hw] at h
  cases w <;> simp_all [Kind.fits]

theorem obeys_strings {place : Place} {l : List String} {checked : Bool} (h : decodeStrings o key place = .ok l) :
    Obeys o ⟨key, .strings, checked⟩ := by
  intro w hw
  rw [decodeStrings, hw] at h
  cases w with
  | arr items =>
    simp only [Kind.fits, List.all_eq_true]
    intro x hx
    obtain ⟨y, hy⟩ := exists_of_forall₂ (forall₂_of_mapM_ok h) x hx
    cases x <;> simp_all
  | _ => simp at h

theorem checked_reference {place : Place} {ref : MethodRef} (h : MethodRef.decode o place = .ok ref) :
    Checked (.reference, o) := by
  obtain ⟨howner, hname, hparams, -⟩ := MethodRef.decode_ok h
  simp [Checked, rules, obeys_text howner, obeys_text hname, obeys_strings hparams]

theorem checked_instruction {owner name : String} {i : Instruction} (h : Instruction.decode o owner name = .ok i) :
    ∀ x ∈ instructionObjects (.obj o), Checked x := by
  obtain ⟨word, hword, hoperand⟩ := Instruction.decode_ok h
  have hOpCode : Obeys o ⟨"OpCode", .text, true⟩ := obeys_text hword
  simp only [instructionObjects, Json.members, hword, Option.getD_some, Checked, List.forall_mem_cons]
  cases hop : Opcode.ofWord word with
  | onMethod op =>
    simp only [hop] at hoperand
    obtain ⟨r, place, ref, hr, href, -⟩ := hoperand
    simp only [rules, hword, Option.getD_some, hop, hr, Option.toList_some]
    simpa [hOpCode, obeys_object hr, Checked, rules] using checked_reference href
  | onType op =>
    simp only [hop] at hoperand
    obtain ⟨t, ht, -⟩ := hoperand
    simp [rules, hword, hop, hOpCode, obeys_text ht]
  | other => simp [rules, hword, hop, hOpCode]

theorem checked_machine {kind typeName : String} (hkind : Object.text? o "Kind" = some kind)
    (htype : Object.text? o "Type" = some typeName) : Checked (.machine, o) := by
  simp [Checked, rules, obeys_text hkind, obeys_text htype]

theorem checked_method {owner : String} {decl : MethodDecl} (h : MethodDecl.decode o owner = .ok decl) :
    ∀ x ∈ methodObjects (.obj o), Checked x := by
  obtain ⟨hname, -, hparams, -, ⟨hstatic, hvirtual, habstract, hnewSlot, hgetter, hsetter⟩, hoverrides, hmachine,
    hbody⟩ := MethodDecl.decode_ok h
  obtain ⟨hbodyKind, hinstructions⟩ := decodeBody_ok hbody
  intro x hx
  simp only [methodObjects, Json.members, List.cons_append, List.mem_cons, List.mem_append, List.mem_map,
    List.mem_flatMap, Option.mem_toList] at hx
  rcases hx with rfl | (⟨y, hy, rfl⟩ | ⟨m, hm, rfl⟩) | ⟨y, hy, hx⟩
  · have hbodyObeys : Obeys o ⟨"Body", .array, true⟩ := by
      intro w hw
      obtain ⟨items, rfl⟩ := hbodyKind w hw
      rfl
    simp [Checked, rules, obeys_name hname, obeys_strings hparams, obeys_flag hstatic, obeys_flag hvirtual,
      obeys_flag habstract, obeys_flag hnewSlot, obeys_flag hgetter, obeys_flag hsetter, hbodyObeys]
  · obtain ⟨r, place, ref, rfl, href⟩ := decodeOverrides_ok hoverrides y hy
    exact checked_reference href
  · obtain ⟨kind, typeName, hkind, htype⟩ := decodeContinuation_ok hmachine m hm
    exact checked_machine hkind htype
  · obtain ⟨r, i, rfl, hi⟩ := hinstructions y hy
    exact checked_instruction hi x hx

theorem checked_type {decl : TypeDecl} (h : TypeDecl.decode o = .ok decl) : Checked (.type, o) := by
  obtain ⟨hname, -, -, habstract, hinterface, hvalue, hinterfaces⟩ := TypeDecl.decode_ok h
  simp [Checked, rules, obeys_name hname, obeys_strings hinterfaces, obeys_flag habstract, obeys_flag hinterface,
    obeys_flag hvalue]

theorem checked_module {x : Json} {head : String × Option MethodRef} (h : headOf? x = some head) :
    ∀ y ∈ moduleObjects x, Checked y := by
  obtain ⟨name, hname, h⟩ := Option.bind_eq_some_iff.mp h
  obtain ⟨entry, hentry, -⟩ := Option.map_eq_some_iff.mp h
  intro y hy
  simp only [moduleObjects, List.mem_cons, List.mem_map, Option.mem_toList] at hy
  rcases hy with rfl | ⟨r, hr, rfl⟩
  · simp [Checked, rules, obeys_name hname]
  · rw [Option.mem_def.mp hr, Option.mapM_some, toOption_eq_some, map_eq_pure_bind, bind_eq_ok] at hentry
    obtain ⟨ref, href, -⟩ := hentry
    exact checked_reference href

theorem mem_methodEntries {kept : List TypeEntry} {e : TypeEntry} {x : Json} (he : e ∈ kept)
    (hx : x ∈ Object.items e.value.members "Methods") : ∃ t, (t, x) ∈ methodEntries kept := by
  obtain ⟨t, ht⟩ := List.mem_iff_getElem?.mp he
  refine ⟨t, List.mem_flatMap.mpr ⟨(e, t), ?_, List.mem_map.mpr ⟨x, hx, rfl⟩⟩⟩
  simpa [List.mem_zipIdx_iff_getElem?] using ht

/-- A description that is read obeys the format as far as that is checked. -/
theorem Describes.checked {v : Json} {p : Program} (h : Describes v p) : ∀ x ∈ contributing v, Checked x := by
  intro x hx
  rcases List.mem_append.mp hx with hx | hx
  · obtain ⟨y, hy, hx⟩ := List.mem_flatMap.mp hx
    obtain ⟨head, hhead⟩ := exists_of_forall₂ (forall₂_of_mapM_some h.modules) y hy
    exact checked_module hhead x hx
  · obtain ⟨e, he, hx⟩ := List.mem_flatMap.mp hx
    rcases List.mem_cons.mp hx with rfl | hx
    · obtain ⟨t, ht⟩ := List.mem_iff_getElem?.mp he
      obtain ⟨o, decl, hvalue, hdecl, -⟩ := h.counted.types t e ht
      rw [hvalue]
      exact checked_type hdecl
    · obtain ⟨y, hy, hx⟩ := List.mem_flatMap.mp hx
      obtain ⟨t, ht⟩ := mem_methodEntries he hy
      obtain ⟨m, hm⟩ := List.mem_iff_getElem?.mp ht
      obtain ⟨o, decl, rfl, hdecl, -⟩ := h.counted.methods m t y hm
      exact checked_method hdecl x hx

end Description

end CallGraphs
