import CallGraphs.Dispatch.Live
import CallGraphs.Dispatch.Matching
import CallGraphs.Hierarchy.Basic

/-! The methods that a virtual call may reach. Class hierarchy analysis takes every type below the declaring
    type for a possible receiver. Rapid type analysis takes only the types known to be instantiated, and
    finds for each of them the method that would run. Candidates come in the order of discovery, each once. -/

namespace CallGraphs

/-- How virtual calls are resolved: by class hierarchy, or by instantiated types. -/
inductive Algorithm where
  | cha | rta
  deriving DecidableEq

/-- The name of an algorithm. -/
def Algorithm.name : Algorithm → String
  | .cha => "CHA"
  | .rta => "RTA"

/-- The algorithm that a word stands for, in any case. -/
def Algorithm.ofWord? (s : String) : Option Algorithm :=
  match Text.upper s with
  | "CHA" => some .cha
  | "RTA" => some .rta
  | _ => none

/-- A program with its hierarchy and a way to resolve virtual calls. -/
structure Dispatch where
  program : Program
  hierarchy : Hierarchy
  algorithm : Algorithm

namespace Dispatch

/-- Resolution of virtual calls in a program. -/
def ofProgram (p : Program) (a : Algorithm) : Dispatch := ⟨p, .ofProgram p, a⟩

/-! ### Instantiated types -/

/-- Whether an instance of the type may exist: the type, a subtype or, for an interface, an implementer is
    instantiated. -/
def isLive (d : Dispatch) (live : LiveTypes) (t : TypeId) : Bool :=
  live.contains t || (d.hierarchy.subtypesOf t).any live.contains ||
    (d.program.isInterface t && (d.hierarchy.implementersOf t).any live.contains)

/-! ### By class hierarchy -/

/-- The target itself, if it can run: a concrete method of a class or a default method of an interface. -/
def declaredCandidate (p : Program) (target : MethodId) (m : MethodDef) : List MethodId :=
  if !m.isAbstract && (!p.isInterface m.owner || m.hasBody) then [target] else []

/-- The methods that the types below the declaring type put in place of the target. -/
def replacements (d : Dispatch) (target : MethodId) (m : MethodDef) : List MethodId :=
  if d.program.isInterface m.owner then
    (d.hierarchy.implementersOf m.owner).filterMap (d.program.implementation? target m)
  else if m.isVirtual then
    (d.hierarchy.subtypesOf m.owner).filterMap (d.program.override? m)
  else []

/-- The candidates by class hierarchy. -/
def byHierarchy (d : Dispatch) (target : MethodId) : List MethodId :=
  match d.program.methods[target]? with
  | none => []
  | some m => (declaredCandidate d.program target m ++ d.replacements target m).eraseDups

/-! ### By instantiated types -/

/-- The method that runs when a receiver of the type `r` is called through a class: the nearest override on
    the way up to the declaring type, else the target if it is concrete. -/
def runOnClass (p : Program) (target : MethodId) (m : MethodDef) (r : TypeId) : Option MethodId :=
  match ((p.chain r).takeWhile (· != m.owner)).findSome? (p.override? m) with
  | some o => some o
  | none => if (p.chain r).contains m.owner && !m.isAbstract then some target else none

/-- The method that runs when a receiver of the type `r` is called through an interface: the nearest
    implementation on the chain of base types, else the default method. -/
def runOnInterface (p : Program) (target : MethodId) (m : MethodDef) (r : TypeId) : Option MethodId :=
  match (p.chain r).findSome? (p.implementation? target m) with
  | some i => some i
  | none => if m.hasBody && !m.isAbstract then some target else none

/-- The instantiated types that a call of `m` can have as receiver. -/
def receivers (d : Dispatch) (live : LiveTypes) (m : MethodDef) : List TypeId :=
  (if d.program.isInterface m.owner then d.hierarchy.implementersOf m.owner
   else m.owner :: d.hierarchy.subtypesOf m.owner).filter live.contains

/-- The candidates among the methods that instantiated receivers run. -/
def liveRuns (d : Dispatch) (live : LiveTypes) (target : MethodId) (m : MethodDef) : List MethodId :=
  if d.program.isInterface m.owner then
    (d.receivers live m).filterMap (runOnInterface d.program target m)
  else if m.isVirtual then
    (d.receivers live m).filterMap (runOnClass d.program target m)
  else if m.isAbstract then []
  else [target]

/-- Whether no receiver of the declaring type exists yet. -/
def isGated (d : Dispatch) (live : LiveTypes) (m : MethodDef) : Bool :=
  (d.program.isInterface m.owner || m.isVirtual) && !d.isLive live m.owner

/-- The candidates by instantiated types. -/
def byLive (d : Dispatch) (live : LiveTypes) (target : MethodId) : List MethodId :=
  match d.program.methods[target]? with
  | none => []
  | some m => if d.isGated live m then [] else (d.liveRuns live target m).eraseDups

/-! ### Either way -/

/-- The candidates of a virtual call, given the instantiated types. -/
def candidates (d : Dispatch) (live : LiveTypes) (target : MethodId) : List MethodId :=
  match d.algorithm with
  | .cha => d.byHierarchy target
  | .rta => d.byLive live target

/-- What there is to say about a resolution. -/
def notice (d : Dispatch) (live : LiveTypes) (target : MethodId) : Notice :=
  let name := d.program.methodName target
  let found := (d.candidates live target).length
  let gated := (d.program.methods[target]?.map (d.isGated live)).getD false
  match d.algorithm with
  | .cha => .trace s!"CHA resolved {name} to {found} candidate(s)"
  | .rta =>
    if gated then .trace s!"RTA found no instantiated receiver for {name}"
    else .trace s!"RTA resolved {name} to {found} candidate(s) over {live.length} instantiated type(s)"

end Dispatch

end CallGraphs
