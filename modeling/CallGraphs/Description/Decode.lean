import CallGraphs.Description.Schema
import CallGraphs.Json.Value
import CallGraphs.Program.Basic

/-! Declarations read from the objects of a description, one object at a time. Each function looks at the
    members in a fixed order and stops at the first fault. Members that may be left out are also passed over
    when they are of another kind, except lists of strings, flags and bodies, where that is a fault. -/

namespace CallGraphs

open Json (Object)

/-! ### Members -/

/-- A list of strings; empty if the member is missing. -/
def decodeStrings (o : Object) (key : String) (place : Place) : Except SchemaError (List String) :=
  match Object.get? o key with
  | none => .ok []
  | some (.arr items) => items.mapM fun
    | .str s => .ok s
    | _ => .error (.notStrings key place)
  | some _ => .error (.notArray key place)

/-- A flag; false if the member is missing. -/
def decodeFlag (o : Object) (key : String) (place : Place) : Except SchemaError Bool :=
  match Object.get? o key with
  | none => .ok false
  | some (.bool b) => .ok b
  | some _ => .error (.notBoolean key place)

/-- A reference to a method. -/
def MethodRef.decode (o : Object) (place : Place) : Except SchemaError MethodRef :=
  match Object.text? o "DeclaringType", Object.text? o "Name" with
  | some owner, some name => do
    let params ← decodeStrings o "Parameters" place
    return { owner, name, params, result := (Object.text? o "ReturnType").getD "System.Void" }
  | _, _ => .error (.incompleteReference place)

/-! ### Methods -/

/-- An instruction of the method `owner::name`. -/
def Instruction.decode (o : Object) (owner name : String) : Except SchemaError Instruction :=
  let here := Place.method owner name
  match Object.text? o "OpCode" with
  | none => .error (.noOpCode here)
  | some mnemonic =>
    match Opcode.ofWord mnemonic with
    | .other => .ok .other
    | .onMethod op =>
      match Object.object? o "Method" with
      | none => .error (.noMethodOperand mnemonic here)
      | some r => do return .onMethod op (← MethodRef.decode r (.operand mnemonic owner name))
    | .onType op =>
      match Object.text? o "Type" with
      | none => .error (.noTypeOperand mnemonic here)
      | some t => .ok (.onType op t)

/-- The visibility of a method; private if the member is missing. -/
def decodeVisibility (o : Object) (place : Place) : Except SchemaError Visibility :=
  match Object.text? o "Visibility" with
  | none => .ok .privateAccess
  | some word =>
    match Visibility.ofWord? word with
    | some v => .ok v
    | none => .error (.unknownVisibility word place)

/-- The explicit overrides of the method `owner::name`. -/
def decodeOverrides (o : Object) (owner name : String) : Except SchemaError (List MethodRef) :=
  (Object.items o "Overrides").mapM fun
    | .obj r => MethodRef.decode r (.override owner name)
    | _ => .error (.overrideNotObject (.method owner name))

/-- The continuation of a method that stops and resumes. -/
def decodeContinuation (o : Object) (place : Place) : Except SchemaError (Option Continuation) :=
  match Object.object? o "StateMachine" with
  | none => .ok none
  | some m =>
    match Object.text? m "Kind", Object.text? m "Type" with
    | some word, some typeName =>
      match ContinuationKind.ofWord? word with
      | some kind => .ok (some { kind, typeName })
      | none => .error (.unknownMachine word place)
    | _, _ => .error (.incompleteMachine place)

/-- The body of the method `owner::name`; there is none if the member is missing. -/
def decodeBody (o : Object) (owner name : String) : Except SchemaError (Option (List Instruction)) :=
  match Object.get? o "Body" with
  | none => .ok none
  | some (.arr items) => do
    let body ← items.mapM fun
      | .obj i => Instruction.decode i owner name
      | _ => .error (.instructionNotObject (.method owner name))
    return some body
  | some _ => .error (.bodyNotArray (.method owner name))

/-- A method of the type with the full name `owner`. -/
def MethodDecl.decode (o : Object) (owner : String) : Except SchemaError MethodDecl :=
  match Object.name? o "Name" with
  | none => .error (.methodUnnamed owner)
  | some name => do
    let here := Place.method owner name
    let params ← decodeStrings o "Parameters" here
    let visibility ← decodeVisibility o here
    let isStatic ← decodeFlag o "IsStatic" here
    let isVirtual ← decodeFlag o "IsVirtual" here
    let isAbstract ← decodeFlag o "IsAbstract" here
    let isNewSlot ← decodeFlag o "IsNewSlot" here
    let isGetter ← decodeFlag o "IsGetter" here
    let isSetter ← decodeFlag o "IsSetter" here
    let overrides ← decodeOverrides o owner name
    let continuation ← decodeContinuation o here
    let body ← decodeBody o owner name
    return { name, params, result := (Object.text? o "ReturnType").getD "System.Void",
             visibility, isStatic, isVirtual, isAbstract, isNewSlot, isGetter, isSetter,
             overrides, continuation, body }

/-! ### Types -/

/-- What a type declares of itself, its methods and nested types apart. -/
def TypeDecl.decode (o : Object) : Except SchemaError TypeDecl :=
  match Object.name? o "Name" with
  | none => .error .typeUnnamed
  | some name => do
    let here := Place.type name
    let isAbstract ← decodeFlag o "IsAbstract" here
    let isInterface ← decodeFlag o "IsInterface" here
    let isValueType ← decodeFlag o "IsValueType" here
    let interfaceNames ← decodeStrings o "Interfaces" here
    return { name, ns := (Object.text? o "Namespace").getD "",
             isAbstract, isInterface, isValueType,
             baseName := (Object.text? o "BaseType").getD "", interfaceNames }

end CallGraphs
