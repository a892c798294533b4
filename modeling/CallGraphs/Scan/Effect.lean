import CallGraphs.Notice
import CallGraphs.Program.Basic

/-! What looking at a method body brings to light, as a list of effects in the order of the instructions. The
    list depends on the program and the method alone: direct calls, types that come to exist, virtual calls
    still to be resolved, and references that lead nowhere. A method that stops and resumes hands over to the
    driver of its continuation type, and then its own body brings nothing. -/

namespace CallGraphs

/-- The kinds of references that lead nowhere. -/
inductive ProblemKind where
  | unresolvedMethod | unresolvedType | missingDriver
  deriving DecidableEq

/-- The words for a kind of problem. -/
def ProblemKind.words : ProblemKind → String
  | .unresolvedMethod => "unresolved method"
  | .unresolvedType => "unresolved type"
  | .missingDriver => "missing continuation driver"

/-- What one instruction, or a continuation, brings to light. -/
inductive Effect where
  | note (n : Notice)
  | problem (kind : ProblemKind) (reference : String)
  | construct (t : TypeId)
  | call (callee : MethodId)
  | dispatch (target : MethodId)
  deriving DecidableEq

namespace Program

/-- A call of a constructor on a value type brings a value of the type into being. -/
def constructedByCall (p : Program) (target : MethodId) : List Effect :=
  match p.methods[target]? with
  | none => []
  | some m => if m.name == ".ctor" && p.isValueType m.owner then [.construct m.owner] else []

/-- The effects of an operation on a resolved method. -/
def methodEffects (p : Program) (op : MethodOp) (r : MethodRef) (target : MethodId) : List Effect :=
  match op with
  | .call => p.constructedByCall target ++ [.call target]
  | .ldftn => [.call target]
  | .callvirt => [.dispatch target]
  | .ldvirtftn => [.dispatch target]
  | .newobj => ((p.typeNamed? r.owner).map Effect.construct).toList ++ [.call target]

/-- The effects of one instruction. -/
def instructionEffects (p : Program) : Instruction → List Effect
  | .onMethod op r =>
    .note (.trace s!"  {op.word}: {r.text}") ::
      match p.resolve? r with
      | none => [.problem .unresolvedMethod r.text]
      | some target => p.methodEffects op r target
  | .onType _ name =>
    match p.typeNamed? name with
    | none => [.problem .unresolvedType name]
    | some t => if p.isValueType t then [.construct t] else []
  | .other => []

/-- The effects of a body. -/
def bodyEffects (p : Program) (m : MethodDef) : List Effect :=
  (m.body.getD []).flatMap p.instructionEffects

/-- The method that drives a continuation type. -/
def driver? (p : Program) (t : TypeId) : Option MethodId :=
  p.firstMethod? t fun m => m.name == "MoveNext" && m.hasBody

/-- The effects of a method. -/
def effects (p : Program) (m : MethodDef) : List Effect :=
  match m.continuation with
  | none => p.bodyEffects m
  | some c =>
    match m.continuationType with
    | none => .problem .unresolvedType c.typeName :: p.bodyEffects m
    | some t =>
      match p.driver? t with
      | none => .problem .missingDriver c.typeName :: p.bodyEffects m
      | some driver =>
        [.note (.trace s!"  continuation: {p.methodName driver}"), .construct t, .call driver]

end Program

end CallGraphs
