import CallGraphs.Dot
import CallGraphs.Hierarchy.Basic
import CallGraphs.Json.Printer

/-! The type hierarchy of a program as plain text, as a DOT graph and as a JSON value. -/

namespace CallGraphs

/-- The forms in which a hierarchy can be shown. -/
inductive HierarchyFormat where
  | text | dot | json
  deriving DecidableEq

namespace Hierarchy

/-! ### Plain text -/

/-- A type with the types that belong to it. -/
def textLine (p : Program) (t : TypeId) (others : List TypeId) : String :=
  p.typeName t ++ " --> " ++ String.join (others.map fun s => p.typeName s ++ " ") ++ "\n"

/-- Every type with its subtypes, then every interface with its implementers. -/
def text (h : Hierarchy) (p : Program) : String :=
  let all := List.range p.types.size
  "Type Hierarchy:\n" ++ String.join (all.map fun t => textLine p t (h.subtypesOf t)) ++
  "Interface Implementations:\n" ++
    String.join ((all.filter p.isInterface).map fun t => textLine p t (h.implementersOf t))

/-! ### DOT -/

/-- A node: interfaces are boxes. -/
def dotNode (p : Program) (t : TypeId) : String :=
  let shape := if p.isInterface t then ",shape=box" else ""
  s!"{t}[label=\"" ++ Dot.escape (p.typeName t) ++ "\"" ++ shape ++ "];\n"

/-- The edges into a type: from its base type, and dashed ones from its interfaces. -/
def dotEdges (p : Program) (t : TypeId) : String :=
  (match p.baseOf t with
   | some b => s!"{b} -> {t};\n"
   | none => "") ++
  String.join ((p.interfacesOf t).map fun i => s!"{i} -> {t}[style=dashed];\n")

/-- The hierarchy as a DOT graph. -/
def dot (p : Program) : String :=
  let all := List.range p.types.size
  "digraph TypeHierarchy\x7b\n" ++ String.join (all.map (dotNode p)) ++
    String.join (all.map (dotEdges p)) ++ "\x7d\n"

/-! ### JSON -/

/-- The names of types. -/
def jsonNames (p : Program) (ts : List TypeId) : Json := .arr (ts.map fun t => .str (p.typeName t))

/-- A type with its subtypes and, for an interface, its implementers. -/
def jsonType (h : Hierarchy) (p : Program) (t : TypeId) : Json :=
  .obj ([("Name", .str (p.typeName t)), ("IsInterface", .bool (p.isInterface t)),
         ("SubTypes", jsonNames p (h.subtypesOf t))] ++
    if p.isInterface t then [("Implementers", jsonNames p (h.implementersOf t))] else [])

/-- The hierarchy as a JSON value. -/
def json (h : Hierarchy) (p : Program) : Json :=
  .obj [("Types", .arr ((List.range p.types.size).map (h.jsonType p)))]

/-- The hierarchy in a chosen form. -/
def render (h : Hierarchy) (p : Program) : HierarchyFormat → String
  | .text => h.text p
  | .dot => dot p
  | .json => (h.json p).pretty ++ "\n"

end Hierarchy

end CallGraphs
