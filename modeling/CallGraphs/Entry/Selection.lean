import CallGraphs.Entry.Filter
import CallGraphs.Notice
import CallGraphs.Program.Listing

/-! The methods that a search starts from, chosen module by module. One strategy takes the entry point that
    the module names. The others take methods of all its types, except interfaces and attribute types, and
    differ in how much they ask of a method. A namespace filter applies to the type in each case. -/

namespace CallGraphs

/-- How entry points are chosen. -/
inductive Strategy where
  | dotnetMain | publicConcrete | accessibleConcrete | concrete | all
  deriving DecidableEq

namespace Strategy

/-- The name of a strategy. -/
def name : Strategy → String
  | .dotnetMain => "DOTNET_MAIN"
  | .publicConcrete => "PUBLIC_CONCRETE"
  | .accessibleConcrete => "ACCESSIBLE_CONCRETE"
  | .concrete => "CONCRETE"
  | .all => "ALL"

/-- The strategy that a word stands for, in any case. -/
def ofWord? (s : String) : Option Strategy :=
  match Text.upper s with
  | "DOTNET_MAIN" => some .dotnetMain
  | "PUBLIC_CONCRETE" => some .publicConcrete
  | "ACCESSIBLE_CONCRETE" => some .accessibleConcrete
  | "CONCRETE" => some .concrete
  | "ALL" => some .all
  | _ => none

/-- Whether a method of an eligible type is chosen. -/
def takes (s : Strategy) (m : MethodDef) : Bool :=
  match s with
  | .all => true
  | .concrete => !m.isAbstract && !m.isAccessor
  | .accessibleConcrete => !m.isAbstract && !m.isAccessor && m.visibility.isAccessible
  | .publicConcrete => !m.isAbstract && !m.isAccessor && m.visibility == .publicAccess
  | .dotnetMain => false

end Strategy

/-- A choice of entry points in a program. -/
structure Selection where
  program : Program
  strategy : Strategy
  filter : NamespaceFilter := []

namespace Selection

/-- Types derived from this one are never called directly. -/
def attributeBase : String := "System.Attribute"

/-- Whether the methods of a type can be entry points. -/
def takesType (s : Selection) (t : TypeId) : Bool :=
  match s.program.types[t]? with
  | none => false
  | some ty =>
    !ty.isInterface && !s.program.derivesFrom t attributeBase && s.filter.accepts ty.ns

/-- The chosen methods of a type, in the order of their declaration. -/
def ofType (s : Selection) (t : TypeId) : List MethodId :=
  if s.takesType t then
    ((s.program.types[t]?.map (·.methods)).getD []).filter fun m =>
      (s.program.methods[m]?.map s.strategy.takes).getD false
  else []

/-- The entry point that a module names, if the filter accepts it. -/
def named (s : Selection) (m : ModuleId) : List MethodId :=
  match s.program.modules[m]?.bind (·.entry) with
  | none => []
  | some e => if s.filter.accepts (s.program.homeOf e).2 then [e] else []

/-- The entry points of a module. -/
def ofModule (s : Selection) (m : ModuleId) : List MethodId :=
  match s.strategy with
  | .dotnetMain => s.named m
  | _ => (s.program.allTypes m).flatMap s.ofType

/-- The entry points of the program. -/
def entryPoints (s : Selection) : List MethodId :=
  (List.range s.program.modules.size).flatMap s.ofModule

/-! ### What there is to say -/

/-- A module without the entry point that is looked for. -/
def moduleNotices (s : Selection) (m : ModuleId) : List Notice :=
  match s.strategy, s.program.modules[m]? with
  | .dotnetMain, some d => if d.entry.isNone then [.debug s!"Module '{d.name}' has no entry point"] else []
  | _, _ => []

/-- How many entry points a module has. -/
def moduleCount (s : Selection) (m : ModuleId) : Notice :=
  let found := (s.ofModule m).length
  let name := (s.program.modules[m]?.map (·.name)).getD ""
  .debug s!"Selected {found} entry point(s) in module '{name}'"

/-- The notices of a choice over the whole program. -/
def notices (s : Selection) : List Notice :=
  let found := s.entryPoints.length
  (List.range s.program.modules.size).flatMap (fun m => s.moduleNotices m ++ [s.moduleCount m]) ++
    [.info s!"Selected {found} entry point(s) with strategy {s.strategy.name}"]

end Selection

end CallGraphs
