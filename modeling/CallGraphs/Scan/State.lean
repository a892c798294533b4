import CallGraphs.Dispatch.Candidates
import CallGraphs.Graph.Basic
import CallGraphs.Scan.Effect

/-! The state of a search for calls, and its operations: put a method on the queue, look at a method, note
    that a type is instantiated, resolve the virtual calls again. Every operation only adds to what has been
    found. A method is looked at once, and only if it has a body; a method found as a callee goes on the
    queue as long as it has not been looked at. -/

namespace CallGraphs

/-- A virtual call: who makes it, and the method it names. -/
structure Site where
  caller : MethodId
  target : MethodId
  deriving DecidableEq

/-- A reference that leads nowhere, and the method that makes it. -/
structure Problem where
  kind : ProblemKind
  method : MethodId
  reference : String
  deriving DecidableEq

/-- What a search has found so far, and what it still has to look at. -/
structure Scan where
  graph : CallGraph := {}
  sites : List Site := []
  live : LiveTypes := []
  problems : List Problem := []
  queue : List MethodId := []
  visited : Array Bool := #[]
  scanned : Nat := 0
  notices : Array Notice := #[]

namespace Scan

/-- Nothing found and nothing to look at. -/
def start (p : Program) : Scan := { visited := Array.replicate p.methods.size false }

/-- Add a notice. -/
def note (s : Scan) (n : Notice) : Scan := { s with notices := s.notices.push n }

/-- Whether a method has been looked at. -/
def isVisited (s : Scan) (m : MethodId) : Bool := s.visited[m]? == some true

/-- Put a method on the queue. -/
def enqueue (s : Scan) (m : MethodId) : Scan := { s with queue := s.queue ++ [m] }

/-- Take the first method off the queue. -/
def dequeue? (s : Scan) : Option (MethodId × Scan) :=
  match s.queue with
  | [] => none
  | m :: rest => some (m, { s with queue := rest })

/-- Note that a type is instantiated. -/
def instantiate (s : Scan) (t : TypeId) : Scan := { s with live := (s.live.add t).2 }

/-! ### Effects -/

/-- Note a type that came into being, with a notice the first time. -/
def construct (p : Program) (s : Scan) (t : TypeId) : Scan :=
  match p.types[t]? with
  | none => s
  | some ty =>
    if t ∈ s.live then s else (s.instantiate t).note (.trace s!"  instantiated: {ty.fullName}")

/-- Record a call; the callee goes on the queue unless it has been looked at. Also says whether the call is new. -/
def tryCall (caller : MethodId) (s : Scan) (callee : MethodId) : Bool × Scan :=
  let (isNew, graph) := s.graph.addEdge ⟨caller, callee⟩
  let s := { s with graph }
  (isNew, if s.isVisited callee then s else s.enqueue callee)

/-- Record a call, whether it is new or not. -/
def addCall (caller : MethodId) (s : Scan) (callee : MethodId) : Scan := (tryCall caller s callee).2

/-- Record a virtual call, once. -/
def addSite (s : Scan) (site : Site) : Scan :=
  if site ∈ s.sites then s else { s with sites := s.sites ++ [site] }

/-- Record one more call, and count it if it is new. -/
def countCall (caller : MethodId) (x : Nat × Scan) (callee : MethodId) : Nat × Scan :=
  let (isNew, s) := tryCall caller x.2 callee
  (if isNew then x.1 + 1 else x.1, s)

/-- Record calls of every candidate of a virtual call; also says how many are new. -/
def dispatch (d : Dispatch) (s : Scan) (site : Site) : Nat × Scan :=
  (d.candidates s.live site.target).foldl (countCall site.caller) (0, s.note (d.notice s.live site.target))

/-- Record calls of every candidate of a virtual call, whether they are new or not. -/
def resolveSite (d : Dispatch) (s : Scan) (site : Site) : Scan := (dispatch d s site).2

/-- Record a reference that leads nowhere. -/
def report (p : Program) (s : Scan) (x : Problem) : Scan :=
  { s with problems := s.problems ++ [x] }.note
    (.warn s!"{x.kind.words} '{x.reference}' in {p.methodName x.method}")

/-- One effect of the method `caller`. -/
def apply (d : Dispatch) (caller : MethodId) (s : Scan) : Effect → Scan
  | .note n => s.note n
  | .problem kind reference => s.report d.program ⟨kind, caller, reference⟩
  | .construct t => s.construct d.program t
  | .call callee => s.addCall caller callee
  | .dispatch target => (s.addSite ⟨caller, target⟩).resolveSite d ⟨caller, target⟩

/-! ### Looking at a method -/

/-- Whether a method has a body that has not been looked at. -/
def canVisit (p : Program) (s : Scan) (m : MethodId) : Bool :=
  (p.methods[m]?.map (·.hasBody)).getD false && s.visited[m]? == some false

/-- The method marked as looked at, with its node. -/
def mark (p : Program) (s : Scan) (m : MethodId) : Scan :=
  { s with
    visited := s.visited.setIfInBounds m true
    scanned := s.scanned + 1
    graph := (s.graph.addNode (.ofMethod p m)).2 }.note (.debug s!"Analyzing method: {p.methodName m}")

/-- The effects of a method of the program. -/
def effectsOf (p : Program) (m : MethodId) : List Effect := (p.methods[m]?.map p.effects).getD []

/-- Look at a method, if it has a body that has not been looked at. -/
def visit (d : Dispatch) (s : Scan) (m : MethodId) : Scan :=
  if s.canVisit d.program m then
    (effectsOf d.program m).foldl (apply d m) (s.mark d.program m)
  else s

/-- Resolve one more virtual call, and count the new edges. -/
def countSite (d : Dispatch) (x : Nat × Scan) (site : Site) : Nat × Scan :=
  let (more, s) := dispatch d x.2 site
  (x.1 + more, s)

/-- Resolve every virtual call again, with the types instantiated by now; also says how many edges are new. -/
def resolveSites (d : Dispatch) (s : Scan) : Nat × Scan :=
  let (fresh, done) := s.sites.foldl (countSite d) (0, s)
  (fresh, done.note (.debug s!"Resolved {s.sites.length} virtual call site(s) again, {fresh} new edge(s)"))

end Scan

end CallGraphs
