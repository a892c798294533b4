import CallGraphs.Scan.Growth

/-! Call graph construction. The methods on the queue are looked at, first come first served, until none is
    left that can be. With rapid type analysis this is followed by rounds: all virtual calls are resolved
    again with the types instantiated by now and the queue is emptied, until a round instantiates no type. -/

namespace CallGraphs

namespace Scan

/-- Look at queued methods until none is left; methods that cannot be looked at are passed over. -/
def drain (d : Dispatch) (s : Scan) : Scan :=
  match _h : s.queue.dropWhile (fun m => !s.canVisit d.program m) with
  | [] => { s with queue := [] }
  | m :: rest => drain d (visit d { s with queue := rest } m)
termination_by s.unmarked
decreasing_by
  have hm : s.canVisit d.program m = true := by
    have := List.head?_dropWhile_not (fun m => !s.canVisit d.program m) s.queue
    rw [_h] at this
    simpa using this
  exact unmarked_visit_lt d { s with queue := rest } m hm

/-- With nothing on the queue that can be looked at, draining empties the queue. -/
theorem drain_of_dropWhile_nil (d : Dispatch) (s : Scan)
    (h : s.queue.dropWhile (fun m => !s.canVisit d.program m) = []) : drain d s = { s with queue := [] } := by
  rw [drain]
  split
  · rfl
  · rename_i hcons; rw [h] at hcons; exact absurd hcons (List.cons_ne_nil _ _).symm

theorem drain_of_dropWhile_cons (d : Dispatch) (s : Scan) (m : MethodId) (rest : List MethodId)
    (h : s.queue.dropWhile (fun m => !s.canVisit d.program m) = m :: rest) :
    drain d s = drain d (visit d { s with queue := rest } m) := by
  rw [drain]
  split
  · rename_i hnil; rw [h] at hnil; exact absurd hnil (List.cons_ne_nil _ _)
  · rename_i hcons; rw [h] at hcons; cases hcons; rfl

theorem drain_nil (d : Dispatch) (s : Scan) (h : s.queue = []) : drain d s = s := by
  rw [drain_of_dropWhile_nil d s (by rw [h]; rfl), ← h]

/-- Draining takes the first method off the queue, looks at it, and goes on. -/
theorem drain_cons (d : Dispatch) (s : Scan) (m : MethodId) (rest : List MethodId) (h : s.queue = m :: rest) :
    drain d s = drain d (visit d { s with queue := rest } m) := by
  cases hm : s.canVisit d.program m with
  | true => exact drain_of_dropWhile_cons d s m rest (by rw [h, List.dropWhile_cons, hm]; rfl)
  | false =>
    have hvisit : visit d { s with queue := rest } m = { s with queue := rest } :=
      if_neg (by rw [show canVisit d.program { s with queue := rest } m = false from hm]; decide)
    have hdrop : s.queue.dropWhile (fun m => !s.canVisit d.program m) =
        rest.dropWhile (fun m => !s.canVisit d.program m) := by rw [h, List.dropWhile_cons, hm]; rfl
    rw [hvisit]
    cases hrest : rest.dropWhile (fun m => !s.canVisit d.program m) with
    | nil =>
      rw [drain_of_dropWhile_nil d s (hdrop.trans hrest), drain_of_dropWhile_nil d _ hrest]
    | cons m' rest' =>
      exact (drain_of_dropWhile_cons d s m' rest' (hdrop.trans hrest)).trans
        (drain_of_dropWhile_cons d { s with queue := rest } m' rest' hrest).symm

theorem drain_live (d : Dispatch) (s : Scan) : LiveGrows d.program s (drain d s) := by
  fun_induction drain d s with
  | case1 s h => exact .of_eq rfl
  | case2 s m rest h ih =>
    have hq : LiveGrows d.program s { s with queue := rest } := .of_eq rfl
    exact (hq.trans (visit_live d _ m)).trans ih

/-- How a round begins: all virtual calls are resolved again. -/
def reopen (d : Dispatch) (s : Scan) (number : Nat) : Scan :=
  let opened := s.note
    (.debug s!"RTA refinement round {number} with {s.live.length} instantiated type(s)")
  (resolveSites d opened).2

/-- One round: resolve all virtual calls again and empty the queue. -/
def round (d : Dispatch) (s : Scan) (number : Nat) : Scan := drain d (reopen d s number)

theorem round_live (d : Dispatch) (s : Scan) (number : Nat) :
    LiveGrows d.program s (round d s number) := by
  have hsites : LiveGrows d.program s (reopen d s number) := .of_eq (by rw [reopen, resolveSites_live]; rfl)
  exact hsites.trans (drain_live d _)

/-- Rounds until one instantiates no type; also says how many rounds there were, `done` of them before. -/
def refine (d : Dispatch) (s : Scan) (done : Nat) : Scan × Nat :=
  let next := round d s (done + 1)
  if next.live.length = s.live.length then (next, done + 1) else refine d next (done + 1)
termination_by idle d.program s
decreasing_by exact idle_lt (round_live d s (done + 1)) (by assumption)

end Scan

/-- A finished search: what was found, and the number of rounds it took. -/
structure Analysis where
  scan : Scan
  rounds : Nat

namespace Analysis

/-- The state in which a search begins: the seeds are on the queue. -/
def opening (d : Dispatch) (seeds : List MethodId) : Scan :=
  let first := (Scan.start d.program).note
    (.info s!"Running {d.algorithm.name} from {seeds.length} entry point(s)")
  { first with queue := seeds }

/-- What there is to say about a finished search. -/
def closing (s : Scan) : Notice :=
  let nodes := s.graph.nodes.length
  let edges := s.graph.edges.length
  .info s!"Reached {nodes} method(s), {edges} edge(s), {s.problems.length} diagnostic(s)"

/-- The call graph that is reached from the seeds. -/
def run (d : Dispatch) (seeds : List MethodId) : Analysis :=
  let drained := Scan.drain d (opening d seeds)
  let (s, rounds) :=
    match d.algorithm with
    | .cha => (drained, 0)
    | .rta => Scan.refine d drained 0
  { scan := s.note (closing s), rounds }

end Analysis

end CallGraphs
