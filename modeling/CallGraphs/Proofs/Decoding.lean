import Mathlib.Data.List.Forall2
import CallGraphs.Description.Draft

/-! What it takes for an object of a description to be read, and what of the object the result depends on. For each
    kind of object there is a lemma that tells what members it has if it is read (`decode_ok`), and one that two objects
    with the same members as far as they are looked up are read alike (`decode_congr`). -/

namespace CallGraphs

open Json (Object)

/-! ### Computations in steps -/

section Steps

variable {ε α β : Type}

theorem bind_eq_ok {x : Except ε α} {f : α → Except ε β} {b : β} : x >>= f = .ok b ↔ ∃ a, x = .ok a ∧ f a = .ok b := by
  cases x <;> simp [bind, Except.bind]

theorem pure_eq_ok {a b : α} : (pure a : Except ε α) = .ok b ↔ a = b := by
  simp [pure, Except.pure]

theorem toOption_bind (x : Except ε α) (f : α → Except ε β) :
    (x >>= f).toOption = x.toOption.bind fun a => (f a).toOption := by
  cases x <;> rfl

theorem toOption_eq_some {x : Except ε α} {a : α} : x.toOption = some a ↔ x = .ok a := by
  cases x <;> simp [Except.toOption]

theorem Draft.toOption_check (d : Draft) (x : Except ε α) : (d.check x).toOption = x.toOption := by
  cases x <;> rfl

theorem Draft.check_eq_ok {d : Draft} {x : Except ε α} {a : α} : d.check x = .ok a ↔ x = .ok a := by
  cases x <;> simp [check]

theorem forall₂_of_mapM_ok {f : α → Except ε β} : ∀ {l : List α} {ys : List β}, l.mapM f = .ok ys →
    List.Forall₂ (fun x y => f x = .ok y) l ys
  | [], ys, h => by
      obtain rfl : [] = ys := pure_eq_ok.mp h
      exact .nil
  | x :: l, ys, h => by
      simp only [List.mapM_cons, bind_eq_ok, pure_eq_ok] at h
      obtain ⟨y, hy, ys', hys', rfl⟩ := h
      exact .cons hy (forall₂_of_mapM_ok hys')

theorem forall₂_of_mapM_some {f : α → Option β} : ∀ {l : List α} {ys : List β}, l.mapM f = some ys →
    List.Forall₂ (fun x y => f x = some y) l ys
  | [], ys, h => by
      obtain rfl : [] = ys := Option.some.inj h
      exact .nil
  | x :: l, ys, h => by
      rw [List.mapM_cons] at h
      obtain ⟨y, hy, h⟩ := Option.bind_eq_some_iff.mp h
      obtain ⟨ys', hys', hcons⟩ := Option.bind_eq_some_iff.mp h
      obtain rfl := Option.some.inj hcons
      exact .cons hy (forall₂_of_mapM_some hys')

theorem exists_of_forall₂ {R : α → β → Prop} {l : List α} {ys : List β} (h : List.Forall₂ R l ys) :
    ∀ x ∈ l, ∃ y, R x y := by
  induction h with
  | nil => simp
  | cons hxy _ ih => exact List.forall_mem_cons.mpr ⟨⟨_, hxy⟩, ih⟩

end Steps

/-! ### Objects that are read -/

theorem TypeDecl.decode_ok {o : Object} {decl : TypeDecl} (h : TypeDecl.decode o = .ok decl) :
    let here := Place.type decl.name
    Object.name? o "Name" = some decl.name ∧ (Object.text? o "Namespace").getD "" = decl.ns ∧
    (Object.text? o "BaseType").getD "" = decl.baseName ∧
    decodeFlag o "IsAbstract" here = .ok decl.isAbstract ∧ decodeFlag o "IsInterface" here = .ok decl.isInterface ∧
    decodeFlag o "IsValueType" here = .ok decl.isValueType ∧
    decodeStrings o "Interfaces" here = .ok decl.interfaceNames := by
  rw [decode] at h
  cases hname : Object.name? o "Name" with
  | none => simp [hname] at h
  | some name =>
    simp only [hname, bind_eq_ok, pure_eq_ok] at h
    obtain ⟨isAbstract, habstract, isInterface, hinterface, isValueType, hvalue, interfaces, hinterfaces, rfl⟩ := h
    exact ⟨rfl, rfl, rfl, habstract, hinterface, hvalue, hinterfaces⟩

theorem MethodDecl.decode_ok {o : Object} {owner : String} {decl : MethodDecl}
    (h : MethodDecl.decode o owner = .ok decl) :
    let here := Place.method owner decl.name
    Object.name? o "Name" = some decl.name ∧ (Object.text? o "ReturnType").getD "System.Void" = decl.result ∧
    decodeStrings o "Parameters" here = .ok decl.params ∧ decodeVisibility o here = .ok decl.visibility ∧
    (decodeFlag o "IsStatic" here = .ok decl.isStatic ∧ decodeFlag o "IsVirtual" here = .ok decl.isVirtual ∧
      decodeFlag o "IsAbstract" here = .ok decl.isAbstract ∧ decodeFlag o "IsNewSlot" here = .ok decl.isNewSlot ∧
      decodeFlag o "IsGetter" here = .ok decl.isGetter ∧ decodeFlag o "IsSetter" here = .ok decl.isSetter) ∧
    decodeOverrides o owner decl.name = .ok decl.overrides ∧
    decodeContinuation o here = .ok decl.continuation ∧ decodeBody o owner decl.name = .ok decl.body := by
  rw [decode] at h
  cases hname : Object.name? o "Name" with
  | none => simp [hname] at h
  | some name =>
    simp only [hname, bind_eq_ok, pure_eq_ok] at h
    obtain ⟨params, hparams, visibility, hvisibility, isStatic, hstatic, isVirtual, hvirtual, isAbstract, habstract,
      isNewSlot, hnewSlot, isGetter, hgetter, isSetter, hsetter, overrides, hoverrides, continuation, hcontinuation,
      body, hbody, rfl⟩ := h
    exact ⟨rfl, rfl, hparams, hvisibility, ⟨hstatic, hvirtual, habstract, hnewSlot, hgetter, hsetter⟩, hoverrides,
      hcontinuation, hbody⟩

theorem MethodRef.decode_ok {o : Object} {place : Place} {r : MethodRef} (h : MethodRef.decode o place = .ok r) :
    Object.text? o "DeclaringType" = some r.owner ∧ Object.text? o "Name" = some r.name ∧
    decodeStrings o "Parameters" place = .ok r.params ∧
    (Object.text? o "ReturnType").getD "System.Void" = r.result := by
  rw [decode] at h
  split at h
  · rename_i owner name howner hname
    simp only [bind_eq_ok, pure_eq_ok] at h
    obtain ⟨params, hparams, rfl⟩ := h
    exact ⟨howner, hname, hparams, rfl⟩
  · simp at h

/-- An instruction that is read has a mnemonic and the operand that the mnemonic needs. -/
theorem Instruction.decode_ok {o : Object} {owner name : String} {i : Instruction}
    (h : Instruction.decode o owner name = .ok i) :
    ∃ word, Object.text? o "OpCode" = some word ∧
      match Opcode.ofWord word with
      | .onMethod op => ∃ r place ref, Object.object? o "Method" = some r ∧ MethodRef.decode r place = .ok ref ∧
        i = .onMethod op ref
      | .onType op => ∃ t, Object.text? o "Type" = some t ∧ i = .onType op t
      | .other => i = .other := by
  rw [decode] at h
  cases hword : Object.text? o "OpCode" with
  | none => simp [hword] at h
  | some word =>
    refine ⟨word, rfl, ?_⟩
    simp only [hword] at h
    cases hop : Opcode.ofWord word with
    | other => simpa [hop, eq_comm] using h
    | onMethod op =>
      cases hoperand : Object.object? o "Method" with
      | none => simp [hop, hoperand] at h
      | some r =>
        simp only [hop, hoperand, bind_eq_ok, pure_eq_ok] at h
        obtain ⟨ref, href, rfl⟩ := h
        exact ⟨r, _, ref, rfl, href, rfl⟩
    | onType op =>
      cases hoperand : Object.text? o "Type" with
      | none => simp [hop, hoperand] at h
      | some t => exact ⟨t, rfl, by simpa [hop, hoperand, eq_comm] using h⟩

theorem decodeOverrides_ok {o : Object} {owner name : String} {l : List MethodRef}
    (h : decodeOverrides o owner name = .ok l) :
    ∀ x ∈ Object.items o "Overrides", ∃ r place ref, x = .obj r ∧ MethodRef.decode r place = .ok ref := by
  intro x hx
  obtain ⟨ref, href⟩ := exists_of_forall₂ (forall₂_of_mapM_ok h) x hx
  cases x with
  | obj r => exact ⟨r, _, ref, rfl, href⟩
  | _ => simp at href

theorem decodeContinuation_ok {o : Object} {place : Place} {c : Option Continuation}
    (h : decodeContinuation o place = .ok c) : ∀ m, Object.object? o "StateMachine" = some m →
      ∃ kind typeName, Object.text? m "Kind" = some kind ∧ Object.text? m "Type" = some typeName := by
  intro m hm
  rw [decodeContinuation, hm] at h
  simp only at h
  split at h
  · rename_i kind typeName hkind htype
    exact ⟨kind, typeName, hkind, htype⟩
  · simp at h

theorem decodeBody_ok {o : Object} {owner name : String} {b : Option (List Instruction)}
    (h : decodeBody o owner name = .ok b) :
    (∀ w, Object.get? o "Body" = some w → ∃ items, w = .arr items) ∧
      ∀ x ∈ Object.items o "Body", ∃ r i, x = .obj r ∧ Instruction.decode r owner name = .ok i := by
  rw [decodeBody] at h
  split at h
  · rename_i hbody
    simp [hbody, Object.items, Object.array?]
  · rename_i items hbody
    refine ⟨fun w hw => ⟨items, by simpa [hbody, eq_comm] using hw⟩, ?_⟩
    intro x hx
    simp only [Object.items, Object.array?, hbody, Option.getD_some] at hx
    simp only [bind_eq_ok] at h
    obtain ⟨body, hmap, -⟩ := h
    obtain ⟨i, hi⟩ := exists_of_forall₂ (forall₂_of_mapM_ok hmap) x hx
    cases x with
    | obj r => exact ⟨r, i, rfl, hi⟩
    | _ => simp at hi
  · simp at h

/-! ### What objects are read by -/

/-- What a type declares of itself depends on the texts of its names and on its flags and interfaces. -/
theorem TypeDecl.decode_congr {o o' : Object}
    (htext : ∀ key ∈ ["Name", "Namespace", "BaseType"], Object.text? o' key = Object.text? o key)
    (hget : ∀ key ∈ ["IsAbstract", "IsInterface", "IsValueType", "Interfaces"],
      Object.get? o' key = Object.get? o key) :
    TypeDecl.decode o' = TypeDecl.decode o := by
  simp only [decode, Object.name?, decodeFlag, decodeStrings, htext "Name" (by simp), htext "Namespace" (by simp),
    htext "BaseType" (by simp), hget "IsAbstract" (by simp), hget "IsInterface" (by simp), hget "IsValueType" (by simp),
    hget "Interfaces" (by simp)]

theorem MethodRef.decode_congr {o o' : Object}
    (htext : ∀ key ∈ ["DeclaringType", "Name", "ReturnType"], Object.text? o' key = Object.text? o key)
    (hparams : Object.get? o' "Parameters" = Object.get? o "Parameters") (place : Place) :
    MethodRef.decode o' place = MethodRef.decode o place := by
  simp only [decode, decodeStrings, htext "DeclaringType" (by simp), htext "Name" (by simp),
    htext "ReturnType" (by simp), hparams]

theorem Instruction.decode_congr {o o' : Object}
    (htext : ∀ key ∈ ["OpCode", "Type"], Object.text? o' key = Object.text? o key)
    (hoperand : ∀ place, ((Object.object? o' "Method").map fun r => MethodRef.decode r place) =
      (Object.object? o "Method").map fun r => MethodRef.decode r place) (owner name : String) :
    Instruction.decode o' owner name = Instruction.decode o owner name := by
  simp only [decode, htext "OpCode" (by simp), htext "Type" (by simp)]
  cases Object.text? o "OpCode" with
  | none => rfl
  | some word =>
    cases hop : Opcode.ofWord word with
    | onMethod op =>
      have h := hoperand (.operand word owner name)
      cases hr' : Object.object? o' "Method" <;> cases hr : Object.object? o "Method" <;> simp_all
    | onType op => simp only [hop]
    | other => simp only [hop]

theorem MethodDecl.decode_congr {o o' : Object}
    (htext : ∀ key ∈ ["Name", "ReturnType", "Visibility"], Object.text? o' key = Object.text? o key)
    (hget : ∀ key ∈ ["Parameters", "IsStatic", "IsVirtual", "IsAbstract", "IsNewSlot", "IsGetter", "IsSetter"],
      Object.get? o' key = Object.get? o key)
    (hmachine : Object.object? o' "StateMachine" = Object.object? o "StateMachine")
    (hoverrides : ∀ owner name, decodeOverrides o' owner name = decodeOverrides o owner name)
    (hbody : ∀ owner name, decodeBody o' owner name = decodeBody o owner name) (owner : String) :
    MethodDecl.decode o' owner = MethodDecl.decode o owner := by
  simp only [decode, Object.name?, decodeStrings, decodeVisibility, decodeFlag, decodeContinuation,
    htext "Name" (by simp), htext "ReturnType" (by simp), htext "Visibility" (by simp), hget "Parameters" (by simp),
    hget "IsStatic" (by simp), hget "IsVirtual" (by simp), hget "IsAbstract" (by simp), hget "IsNewSlot" (by simp),
    hget "IsGetter" (by simp), hget "IsSetter" (by simp), hmachine, hoverrides, hbody]

end CallGraphs
