import CallGraphs.Description.Decode
import CallGraphs.Program.Build

/-! Descriptions walked from top to bottom, object by object, while a program grows. The first type of a full
    name is kept; a later one is passed over with a notice, and nothing inside it is looked at. The first
    fault ends the walk and carries the notices given before it. -/

namespace CallGraphs

open Json (Object)

/-- A program under construction, with the notices given so far. -/
structure Draft where
  program : Program := {}
  notices : Array Notice := #[]

/-- Why work stopped, with the notices given before. -/
structure Halt (ε : Type) where
  cause : ε
  notices : Array Notice

namespace Draft

/-- Add a notice. -/
def note (d : Draft) (n : Notice) : Draft := { d with notices := d.notices.push n }

/-- Go on with a result, or stop with the notices of the draft. -/
def check {ε α : Type} (d : Draft) : Except ε α → Except (Halt ε) α
  | .ok a => .ok a
  | .error e => .error ⟨e, d.notices⟩

/-- Read one method of the type `t`, whose own name is `typeName`. -/
def readMethod (t : TypeId) (typeName : String) (d : Draft) : Json → Except (Halt SchemaError) Draft
  | .obj o => do
    let decl ← d.check (MethodDecl.decode o (d.program.typeName t))
    return { d with program := (d.program.addMethod t decl).2 }
  | _ => d.check (.error (.methodNotObject (.type typeName)))

mutual

/-- Read one type with its methods and then its nested types; `bad` is the fault of an entry that is no
    object. -/
def readType (m : ModuleId) (enclosing : Option TypeId) (bad : SchemaError) (d : Draft) :
    Json → Except (Halt SchemaError) Draft
  | .obj o => do
    let decl ← d.check (TypeDecl.decode o)
    match d.program.addType? m decl enclosing with
    | none => return d.note (d.program.duplicateType m decl enclosing)
    | some (t, p) =>
      let d ← (Object.items o "Methods").foldlM (readMethod t decl.name) { d with program := p }
      readTypes m (some t) (.nestedNotObject (.type decl.name)) d (Object.items o "NestedTypes")
  | _ => d.check (.error bad)
termination_by v => sizeOf v
decreasing_by
  have := Object.sizeOf_items o "NestedTypes"
  simp only [Json.obj.sizeOf_spec]
  omega

/-- Read types one after the other. -/
def readTypes (m : ModuleId) (enclosing : Option TypeId) (bad : SchemaError) (d : Draft) :
    List Json → Except (Halt SchemaError) Draft
  | [] => .ok d
  | v :: vs => do
    let d ← readType m enclosing bad d v
    readTypes m enclosing bad d vs
termination_by vs => sizeOf vs

end

/-- Read the name of an entry point, if the module has one. -/
def readEntry (m : ModuleId) (name : String) (o : Object) (d : Draft) : Except (Halt SchemaError) Draft :=
  match Object.object? o "EntryPoint" with
  | none => .ok d
  | some r => do
    let ref ← d.check (MethodRef.decode r (.entryPoint name))
    return { d with program := d.program.setEntry m ref }

/-- Read one module. -/
def readModule (d : Draft) : Json → Except (Halt SchemaError) Draft
  | .obj o =>
    match Object.name? o "Name" with
    | none => d.check (.error .moduleUnnamed)
    | some name => do
      let (m, p) := d.program.addModule name
      let d ← readEntry m name o { d with program := p }
      readTypes m none (.typeNotObject name) d (Object.items o "Types")
  | _ => d.check (.error .moduleNotObject)

/-- Read a whole description. -/
def readDocument (d : Draft) : Json → Except (Halt SchemaError) Draft
  | .obj o =>
    match Object.array? o "Modules" with
    | none => d.check (.error .noModules)
    | some entries => entries.foldlM readModule d
  | _ => d.check (.error .notAnObject)

/-- Bind all names, once everything is read. -/
def finish (d : Draft) : Draft :=
  { program := d.program.finalize, notices := d.notices ++ d.program.bindingNotices }

end Draft

end CallGraphs
