import CallGraphs.Dot
import CallGraphs.Graph.Basic
import CallGraphs.Json.Printer

/-! Call graphs for other tools: a JSON value with every node and edge, and a DOT graph with the first edges
    only. Both name methods by their full names, the DOT graph in a short form without return type and
    parameters. -/

namespace CallGraphs.CallGraph

/-! ### JSON -/

/-- A node. -/
def jsonNode (n : Node) : Json :=
  .obj [("Module", .str n.moduleName), ("Namespace", .str n.ns), ("Signature", .str n.signature)]

/-- An edge. -/
def jsonEdge (p : Program) (e : Edge) : Json :=
  .obj [("Caller", .str (p.methodName e.caller)), ("Callee", .str (p.methodName e.callee))]

/-- The graph as a JSON value. -/
def json (g : CallGraph) (p : Program) : Json :=
  .obj [("Nodes", .arr (g.nodes.map jsonNode)), ("Edges", .arr (g.edges.map (jsonEdge p)))]

/-! ### DOT -/

/-- The short form of a full name: what follows the first blank, up to the last opening parenthesis. -/
def shortName (cs : List Char) : List Char :=
  Text.beforeLast '(' (Text.afterFirst ' ' cs) ++ ['(', ')']

/-- The label of a full name. -/
def label (fullName : String) : String := String.ofList (shortName fullName.toList)

/-- The line of an edge. -/
def dotEdge (escape : String → String) (p : Program) (e : Edge) : String :=
  "  \"" ++ escape (label (p.methodName e.caller)) ++ "\" -> \"" ++ escape (label (p.methodName e.callee)) ++ "\"\n"

/-- The lines of edges, of which `index` have been written before. At the limit the loop is left. -/
def dotEdges (escape : String → String) (p : Program) (limit : Nat) : Nat → List Edge → String
  | _, [] => ""
  | index, e :: rest =>
    if index == limit then "" else dotEdge escape p e ++ dotEdges escape p limit (index + 1) rest

/-- The first `limit` edges as a DOT graph, with a way to write labels between quotes. -/
def dotBy (escape : String → String) (g : CallGraph) (p : Program) (limit : Nat) : String :=
  "digraph G \x7b\n" ++ dotEdges escape p limit 0 g.edges ++ "\x7d\n"

/-- The first `limit` edges as a DOT graph. -/
def dot (g : CallGraph) (p : Program) (limit : Nat) : String := g.dotBy Dot.escape p limit

/-- How many edges a DOT graph has if nothing else is asked for. -/
def defaultDotLimit : Nat := 50

/-- Whether every edge is between methods of the program. -/
def isWithin (g : CallGraph) (p : Program) : Bool :=
  g.edges.all fun e => decide (e.caller < p.methods.size) && decide (e.callee < p.methods.size)

/-- The DOT file that goes with a JSON file: `graph.dot` in the same directory. -/
def dotPathFor (jsonPath : String) : String :=
  let parts := Text.split '/' jsonPath.toList
  Text.join "/" (parts.dropLast.map String.ofList ++ ["graph.dot"])

end CallGraphs.CallGraph
