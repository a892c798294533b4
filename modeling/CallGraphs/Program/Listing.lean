import CallGraphs.Forest
import CallGraphs.Program.Basic

/-! The types of a module in the order of their declaration, nested ones included, and a program as text. -/

namespace CallGraphs.Program

/-- The types declared inside a type. -/
def nestedOf (p : Program) (t : TypeId) : List TypeId := (p.types[t]?.map (·.nested)).getD []

/-- The types of a module that are not nested. -/
def topTypes (p : Program) (m : ModuleId) : List TypeId := (p.modules[m]?.map (·.types)).getD []

/-- All types of a module, each before the types nested in it. -/
def allTypes (p : Program) (m : ModuleId) : List TypeId :=
  (p.topTypes m).flatMap (Forest.preorder p.nestedOf p.types.size)

/-! ### Text -/

/-- The line of a method: its full name, the size of its body and whether it has one. -/
def methodLine (m : MethodDef) : String :=
  let name := m.fullName.getD ""
  let size := (m.body.getD []).length
  let kind := if m.hasBody then "insts" else "no body"
  s!"    {name} [{size} {kind}]\n"

/-- The line of a type: its kind, its full name and the name of its base type. -/
def typeLine (ty : TypeDef) : String :=
  let kind := if ty.isInterface then "interface" else "type"
  let base := if ty.baseName = "" then "" else " : " ++ ty.baseName
  s!"  {kind} {ty.fullName}{base}\n"

/-- The lines of a type and of its methods. -/
def typeText (p : Program) (t : TypeId) : String :=
  match p.types[t]? with
  | none => ""
  | some ty => typeLine ty ++ String.join ((ty.methods.filterMap (p.methods[·]?)).map methodLine)

/-- The lines of a module and of its types. -/
def moduleText (p : Program) (m : ModuleId) : String :=
  match p.modules[m]? with
  | none => ""
  | some d => s!"module {d.name}\n" ++ String.join ((p.allTypes m).map p.typeText)

/-- The program as text, module by module. -/
def text (p : Program) : String := String.join ((List.range p.modules.size).map p.moduleText)

end CallGraphs.Program
