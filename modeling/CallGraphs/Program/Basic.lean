import CallGraphs.Program.Method

/-! Programs: tables of modules, types and methods that refer to one another by position. Names are bound to
    positions by `Program.finalize`; until then a base type, an interface, a continuation type or an entry
    point is only a name. Nothing has its number in a field of its own, since the number is the position, and there
    are no tables from names to numbers: to look up a type or a method is to search for its full name, and the first
    one that has it counts. Method references are resolved along the chain of base types, which is walked for at most
    one step more than there are types, so that a cycle of base types ends the walk and nothing is missed. -/

namespace CallGraphs

abbrev ModuleId := Nat
abbrev TypeId := Nat
abbrev MethodId := Nat

/-- A type as declared. An empty base name means that there is no base type. -/
structure TypeDecl where
  name : String
  ns : String := ""
  isAbstract : Bool := false
  isInterface : Bool := false
  isValueType : Bool := false
  baseName : String := ""
  interfaceNames : List String := []
  deriving DecidableEq

/-- A type of a program: the declaration, its place, and what its names are bound to. -/
structure TypeDef extends TypeDecl where
  moduleId : ModuleId
  fullName : String
  enclosing : Option TypeId := none
  nested : List TypeId := []
  methods : List MethodId := []
  base : Option TypeId := none
  interfaces : List TypeId := []
  deriving DecidableEq

/-- A method of a program: the declaration, its type, and what its names are bound to. It has no full name
    before the first binding. -/
structure MethodDef extends MethodDecl where
  owner : TypeId
  fullName : Option String := none
  continuationType : Option TypeId := none
  deriving DecidableEq

/-- A module of a program: its types that are not nested, and its entry point by name and by position. -/
structure ModuleDef where
  name : String
  types : List TypeId := []
  entryRef : Option MethodRef := none
  entry : Option MethodId := none
  deriving DecidableEq

/-- A program: modules, types and methods, each numbered by position. -/
structure Program where
  modules : Array ModuleDef := #[]
  types : Array TypeDef := #[]
  methods : Array MethodDef := #[]
  deriving DecidableEq

namespace Program

/-! ### Looking things up -/

/-- A program without modules is empty. -/
def isEmpty (p : Program) : Bool := p.modules.isEmpty

/-- The type with a full name. -/
def typeNamed? (p : Program) (name : String) : Option TypeId :=
  p.types.findIdx? fun t => t.fullName == name

/-- The first method with a full name. -/
def methodNamed? (p : Program) (name : String) : Option MethodId :=
  p.methods.findIdx? fun m => m.fullName == some name

/-- The full name of a type; empty for a position without a type. -/
def typeName (p : Program) (t : TypeId) : String := (p.types[t]?.map (·.fullName)).getD ""

/-- The full name of a method; empty before the first binding. -/
def methodName (p : Program) (m : MethodId) : String := (p.methods[m]?.bind (·.fullName)).getD ""

/-- The base type that a type is bound to. -/
def baseOf (p : Program) (t : TypeId) : Option TypeId := p.types[t]?.bind (·.base)

/-- The interfaces that a type is bound to. -/
def interfacesOf (p : Program) (t : TypeId) : List TypeId := (p.types[t]?.map (·.interfaces)).getD []

/-- Whether a position holds an interface. -/
def isInterface (p : Program) (t : TypeId) : Bool := (p.types[t]?.map (·.isInterface)).getD false

/-- Whether a position holds a value type. -/
def isValueType (p : Program) (t : TypeId) : Bool := (p.types[t]?.map (·.isValueType)).getD false

/-- The module name and the namespace that a method belongs to. -/
def homeOf (p : Program) (m : MethodId) : String × String :=
  match p.methods[m]?.bind fun d => p.types[d.owner]? with
  | none => ("", "")
  | some ty => ((p.modules[ty.moduleId]?.map (·.name)).getD "", ty.ns)

/-- The first method of a type, in declaration order, that passes a test. -/
def firstMethod? (p : Program) (t : TypeId) (test : MethodDef → Bool) : Option MethodId :=
  p.types[t]?.bind fun ty => ty.methods.find? fun m => (p.methods[m]?.map test).getD false

/-! ### The chain of base types -/

/-- At most `n` types of the chain that starts at `t` and follows base types. -/
def climb (p : Program) : Nat → TypeId → List TypeId
  | 0, _ => []
  | n + 1, t =>
    if t < p.types.size then
      t :: (match p.baseOf t with
        | none => []
        | some b => climb p n b)
    else []

/-- The chain of base types from `t` on, `t` included, cut one step after every type could have come up. -/
def chain (p : Program) (t : TypeId) : List TypeId := p.climb (p.types.size + 1) t

/-- Whether a type on the chain from `t` names `base` as its base type. Names are compared, so the base
    type need not be part of the program. -/
def derivesFrom (p : Program) (t : TypeId) (base : String) : Bool :=
  (p.chain t).any fun s => (p.types[s]?.map fun ty => ty.baseName == base).getD false

/-- The definition that a reference means: the first method with its signature in the nearest type of the
    chain that starts at the named type. -/
def resolve? (p : Program) (r : MethodRef) : Option MethodId :=
  (p.typeNamed? r.owner).bind fun t =>
    (p.chain t).findSome? fun s => p.firstMethod? s fun m => m.toSignature == r.toSignature

end Program

end CallGraphs
