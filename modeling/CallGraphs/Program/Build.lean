import CallGraphs.Notice
import CallGraphs.Program.Basic

/-! Building a program: modules, types and methods are appended one at a time, and `Program.finalize` binds
    every name to a position, afresh each time. A full type name is taken by the first type that has it;
    a later type of that name is refused and the program stays as it was. -/

namespace CallGraphs.Program

/-! ### Appending -/

/-- Append a module. -/
def addModule (p : Program) (name : String) : ModuleId × Program :=
  (p.modules.size, { p with modules := p.modules.push { name } })

/-- The namespace and full name of a type in its place: a nested type takes the namespace of the type around
    it and is divided from it by a slash. -/
def place (p : Program) (decl : TypeDecl) (enclosing : Option TypeId) : String × String :=
  match enclosing.bind (p.types[·]?) with
  | some outer => (outer.ns, outer.fullName ++ "/" ++ decl.name)
  | none => (decl.ns, if decl.ns = "" then decl.name else decl.ns ++ "." ++ decl.name)

/-- List a new type where it belongs: with the type around it, else with its module. -/
def enlist (p : Program) (m : ModuleId) (enclosing : Option TypeId) (t : TypeId) : Program :=
  match enclosing with
  | some e => { p with types := p.types.modify e fun ty => { ty with nested := ty.nested ++ [t] } }
  | none => { p with modules := p.modules.modify m fun d => { d with types := d.types ++ [t] } }

/-- Append a type, inside another one or directly in a module; refused if its full name is taken. What is appended is
    a declaration: the type has no nested types and no methods yet. -/
def addType? (p : Program) (m : ModuleId) (decl : TypeDecl) (enclosing : Option TypeId) :
    Option (TypeId × Program) :=
  let (ns, fullName) := p.place decl enclosing
  if (p.typeNamed? fullName).isSome then none
  else
    let ty : TypeDef := { decl with ns, fullName, moduleId := m, enclosing }
    let t := p.types.size
    some (t, { p with types := p.types.push ty }.enlist m enclosing t)

/-- What to say about a type whose full name is taken. -/
def duplicateType (p : Program) (m : ModuleId) (decl : TypeDecl) (enclosing : Option TypeId) : Notice :=
  let (_, fullName) := p.place decl enclosing
  let home := (p.modules[m]?.map (·.name)).getD ""
  .warn s!"Duplicate definition of type '{fullName}' in module '{home}' ignored"

/-- Append a method to a type. -/
def addMethod (p : Program) (t : TypeId) (decl : MethodDecl) : MethodId × Program :=
  let m := p.methods.size
  (m, { p with
    types := p.types.modify t fun ty => { ty with methods := ty.methods ++ [m] }
    methods := p.methods.push { decl with owner := t } })

/-- Name the entry point of a module. -/
def setEntry (p : Program) (m : ModuleId) (r : MethodRef) : Program :=
  { p with modules := p.modules.modify m fun d => { d with entryRef := some r } }

/-! ### Binding names -/

/-- The base type that a declaration names. -/
def boundBase (p : Program) (ty : TypeDef) : Option TypeId :=
  if ty.baseName = "" then none else p.typeNamed? ty.baseName

/-- A type with base type and interfaces bound; names of unknown interfaces bind to nothing. -/
def bindType (p : Program) (ty : TypeDef) : TypeDef :=
  { ty with base := p.boundBase ty, interfaces := ty.interfaceNames.filterMap p.typeNamed? }

/-- A method with its full name and its continuation type. -/
def bindMethod (p : Program) (m : MethodDef) : MethodDef :=
  { m with
    fullName := some (m.toSignature.fullName (p.typeName m.owner))
    continuationType := m.continuation.bind fun c => p.typeNamed? c.typeName }

/-- A module with its entry point. -/
def bindModule (p : Program) (d : ModuleDef) : ModuleDef :=
  { d with entry := d.entryRef.bind p.resolve? }

/-- The program with types and methods bound. -/
def bindDefinitions (p : Program) : Program :=
  { p with types := p.types.map p.bindType, methods := p.methods.map p.bindMethod }

/-- The program with every name bound. Entry points come last: they are resolved along bound base types. -/
def finalize (p : Program) : Program :=
  { p.bindDefinitions with modules := p.modules.map p.bindDefinitions.bindModule }

/-! ### What binding has to say -/

/-- The names in a type that the program does not define. -/
def typeNotices (p : Program) (ty : TypeDef) : List Notice :=
  (if ty.baseName ≠ "" ∧ p.typeNamed? ty.baseName = none then
    [.debug s!"Base type '{ty.baseName}' of '{ty.fullName}' is not part of the program"] else []) ++
  (ty.interfaceNames.filter fun i => (p.typeNamed? i).isNone).map fun i =>
    .debug s!"Interface '{i}' of '{ty.fullName}' is not part of the program"

/-- An entry point that cannot be resolved. -/
def entryNotices (p : Program) (d : ModuleDef) : List Notice :=
  match d.entryRef with
  | some r =>
    if (p.resolve? r).isNone then
      [.warn s!"Entry point '{r.text}' of module '{d.name}' cannot be resolved"]
    else []
  | none => []

/-- The notices of a binding: per type, then per module. -/
def bindingNotices (p : Program) : List Notice :=
  p.types.toList.flatMap p.typeNotices ++ p.modules.toList.flatMap p.bindDefinitions.entryNotices

end CallGraphs.Program
