import CallGraphs.Program.Basic
import CallGraphs.Table

/-! Call graphs: nodes for the methods that were looked at and edges for the calls found in them, each once
    and in the order in which they came. Beside the two lists stand tables that answer questions without a
    search: the position of the node of a method, the calls that are edges, and the callees of a method. An
    addition asks its table whether it is new and then goes into the list and the tables alike, so lists and
    tables agree (`CallTables.Agree`), and a call graph is one in which they do. -/

namespace CallGraphs

/-- A method of the graph, described by module, namespace and full name. -/
structure Node where
  method : MethodId
  moduleName : String
  ns : String
  signature : String
  deriving DecidableEq

/-- A call from one method to another. -/
structure Edge where
  caller : MethodId
  callee : MethodId
  deriving DecidableEq

/-- The lists and tables of a call graph. -/
structure CallTables where
  nodes : List Node := []
  /-- Where in the list the node of a method stands. -/
  index : Table MethodId Nat := {}
  edges : List Edge := []
  /-- The calls that are in the list. -/
  known : Table Edge Unit := {}
  /-- The callees of a method, in the order of the list. -/
  targets : Table MethodId (List MethodId) := {}
  deriving DecidableEq

namespace CallTables

/-- Whether a method has a node. -/
def hasNode (g : CallTables) (m : MethodId) : Bool := g.index.contains m

/-- The node of a method. -/
def node? (g : CallTables) (m : MethodId) : Option Node := (g.index.find? m).bind (g.nodes[·]?)

/-- Whether a call is an edge. -/
def hasEdge (g : CallTables) (e : Edge) : Bool := g.known.contains e

/-- The callees of a method, in the order of the edges. -/
def callees (g : CallTables) (m : MethodId) : List MethodId := (g.targets.find? m).getD []

/-- Whether there is neither a node nor an edge. -/
def isEmpty (g : CallTables) : Bool := g.nodes.isEmpty && g.edges.isEmpty

/-- Add a node unless its method has one; also says whether the graph has changed. -/
def addNode (g : CallTables) (n : Node) : Bool × CallTables :=
  let (isNew, index) := g.index.tryInsert n.method g.nodes.length
  if isNew then (true, { g with index, nodes := g.nodes ++ [n] }) else (false, g)

/-- Add an edge unless it is there; also says whether the graph has changed. -/
def addEdge (g : CallTables) (e : Edge) : Bool × CallTables :=
  let (isNew, known) := g.known.tryInsert e ()
  if isNew then
    (true, { g with known, edges := g.edges ++ [e], targets := g.targets.update e.caller [] (· ++ [e.callee]) })
  else (false, g)

/-! ### Lists and tables agree -/

/-- Every table says what a search through its list would say. -/
structure Agree (g : CallTables) : Prop where
  index : ∀ m, g.index.find? m = g.nodes.findIdx? fun n => n.method == m
  known : ∀ e, g.known.contains e = true ↔ e ∈ g.edges
  targets : ∀ m, (g.targets.find? m).getD [] = (g.edges.filter fun e => e.caller == m).map (·.callee)

theorem addNode_of_hasNode {g : CallTables} {n : Node} (h : g.hasNode n.method = true) :
    g.addNode n = (false, g) := by
  rw [addNode, Table.tryInsert_of_contains h]
  rfl

theorem addNode_of_not_hasNode {g : CallTables} {n : Node} (h : g.hasNode n.method = false) :
    g.addNode n = (true, { g with
      index := ⟨(n.method, g.nodes.length) :: g.index.entries⟩, nodes := g.nodes ++ [n] }) := by
  rw [addNode, Table.tryInsert, if_neg (Bool.not_eq_true _ ▸ h)]
  rfl

theorem addEdge_of_hasEdge {g : CallTables} {e : Edge} (h : g.hasEdge e = true) : g.addEdge e = (false, g) := by
  rw [addEdge, Table.tryInsert_of_contains h]
  rfl

theorem addEdge_of_not_hasEdge {g : CallTables} {e : Edge} (h : g.hasEdge e = false) :
    g.addEdge e = (true, { g with
      known := ⟨(e, ()) :: g.known.entries⟩, edges := g.edges ++ [e],
      targets := g.targets.update e.caller [] (· ++ [e.callee]) }) := by
  rw [addEdge, Table.tryInsert, if_neg (Bool.not_eq_true _ ▸ h)]
  rfl

namespace Agree

theorem empty : Agree {} := ⟨fun _ => rfl, fun _ => by simp [Table.contains, Table.find?], fun _ => rfl⟩

/-- A new node gets the position at the end of the list, where a search finds it. -/
theorem addNode {g : CallTables} (h : g.Agree) (n : Node) : (g.addNode n).2.Agree := by
  cases hnew : g.hasNode n.method with
  | true => rwa [addNode_of_hasNode hnew]
  | false =>
    rw [addNode_of_not_hasNode hnew]
    refine ⟨fun m => ?_, h.known, h.targets⟩
    have hnone : g.index.find? n.method = none := by simpa [hasNode, Table.contains] using hnew
    rw [Table.find?_insert, List.findIdx?_append, ← h.index m]
    by_cases hm : m = n.method
    · subst hm
      simp [hnone]
    · simp [hm, Ne.symm hm]

/-- A new edge goes to the end of the edges and to the end of the callees of its caller. -/
theorem addEdge {g : CallTables} (h : g.Agree) (e : Edge) : (g.addEdge e).2.Agree := by
  cases hnew : g.hasEdge e with
  | true => rwa [addEdge_of_hasEdge hnew]
  | false =>
    rw [addEdge_of_not_hasEdge hnew]
    refine ⟨h.index, fun x => ?_, fun m => ?_⟩
    · rw [Table.contains, Table.find?_insert, List.mem_append, List.mem_singleton, ← h.known x]
      by_cases hx : x = e <;> simp [hx, Table.contains]
    · rw [Table.find?_update, List.filter_append, List.map_append, ← h.targets m]
      by_cases hm : m = e.caller
      · subst hm
        simp
      · simp [hm, Ne.symm hm]

theorem hasNode_iff {g : CallTables} (h : g.Agree) {m : MethodId} :
    g.hasNode m = true ↔ m ∈ g.nodes.map (·.method) := by
  rw [hasNode, Table.contains, h.index m, List.findIdx?_isSome]
  simp

theorem node?_eq {g : CallTables} (h : g.Agree) (m : MethodId) :
    g.node? m = g.nodes.find? fun n => n.method == m := by
  rw [node?, h.index m, List.find?_eq_bind_findIdx?_getElem?]

end Agree

end CallTables

/-- A call graph, whose lists and tables agree. -/
structure CallGraph extends CallTables where
  agree : toCallTables.Agree

namespace CallGraph

instance : EmptyCollection CallGraph := ⟨⟨{}, .empty⟩⟩

@[simp] theorem empty_nodes : (∅ : CallGraph).nodes = [] := rfl

@[simp] theorem empty_edges : (∅ : CallGraph).edges = [] := rfl

/-- Add a node unless its method has one; also says whether the graph has changed. -/
def addNode (g : CallGraph) (n : Node) : Bool × CallGraph :=
  let added := g.toCallTables.addNode n
  (added.1, ⟨added.2, g.agree.addNode n⟩)

/-- Add an edge unless it is there; also says whether the graph has changed. -/
def addEdge (g : CallGraph) (e : Edge) : Bool × CallGraph :=
  let added := g.toCallTables.addEdge e
  (added.1, ⟨added.2, g.agree.addEdge e⟩)

theorem eq_of_toCallTables_eq {g g' : CallGraph} (h : g.toCallTables = g'.toCallTables) : g = g' := by
  cases g
  cases g'
  cases h
  rfl

variable (g : CallGraph)

theorem hasNode_iff {m : MethodId} : g.hasNode m = true ↔ m ∈ g.nodes.map (·.method) := g.agree.hasNode_iff

theorem hasEdge_iff {e : Edge} : g.hasEdge e = true ↔ e ∈ g.edges := g.agree.known e

theorem hasEdge_eq (e : Edge) : g.hasEdge e = decide (e ∈ g.edges) := by
  rw [Bool.eq_iff_iff, g.hasEdge_iff, decide_eq_true_iff]

theorem addNode_edges (n : Node) : (g.addNode n).2.edges = g.edges := by
  show (g.toCallTables.addNode n).2.edges = g.edges
  unfold CallTables.addNode
  dsimp only
  split <;> rfl

theorem addNode_nodes (n : Node) :
    (g.addNode n).2.nodes = if n.method ∈ g.nodes.map (·.method) then g.nodes else g.nodes ++ [n] := by
  show (g.toCallTables.addNode n).2.nodes = _
  cases h : g.hasNode n.method with
  | true => rw [CallTables.addNode_of_hasNode h, if_pos (g.hasNode_iff.mp h)]
  | false => rw [CallTables.addNode_of_not_hasNode h, if_neg (mt g.hasNode_iff.mpr (Bool.not_eq_true _ ▸ h))]

theorem addEdge_nodes (e : Edge) : (g.addEdge e).2.nodes = g.nodes := by
  show (g.toCallTables.addEdge e).2.nodes = g.nodes
  unfold CallTables.addEdge
  dsimp only
  split <;> rfl

/-- An edge that is there is refused. -/
theorem addEdge_of_mem {e : Edge} (h : e ∈ g.edges) : g.addEdge e = (false, g) := by
  have hadded := CallTables.addEdge_of_hasEdge (g.hasEdge_iff.mpr h)
  exact Prod.ext (congrArg Prod.fst hadded :) (eq_of_toCallTables_eq (congrArg Prod.snd hadded :))

theorem addEdge_of_not_mem {e : Edge} (h : e ∉ g.edges) :
    (g.addEdge e).1 = true ∧ (g.addEdge e).2.edges = g.edges ++ [e] := by
  have hnew : g.hasEdge e = false := Bool.eq_false_iff.mpr (mt g.hasEdge_iff.mp h)
  show (g.toCallTables.addEdge e).1 = true ∧ (g.toCallTables.addEdge e).2.edges = _
  rw [CallTables.addEdge_of_not_hasEdge hnew]
  exact ⟨rfl, rfl⟩

end CallGraph

/-- The node of a method of a program. -/
def Node.ofMethod (p : Program) (m : MethodId) : Node :=
  { method := m, moduleName := (p.homeOf m).1, ns := (p.homeOf m).2, signature := p.methodName m }

end CallGraphs
