import CallGraphs.Hierarchy.Walk
import CallGraphs.Notice
import CallGraphs.Program.Listing
import CallGraphs.Table

/-! The type hierarchy of a program: for each type its strict subtypes along base types, and for each
    interface the types that implement it. Subtypes are a stretch of one line of all types. A type whose
    chain of base types never ends has no subtypes. Implementers are found through interfaces that extend
    the interface and through subtypes of implementers, and come in the order of their numbers. Answers about
    implementers are kept and given again (`ask`). They are those of `implementersOf`, which stands for them wherever
    a hierarchy is used. -/

namespace CallGraphs

/-- All types in one line, with the range of each, and for each type the types that list it as an interface. -/
structure Hierarchy where
  line : Array TypeId
  ranges : Array (Nat × Nat)
  listers : Array (List TypeId)

namespace Hierarchy

/-- The types that list each type among their interfaces. -/
def listersIn (p : Program) : Array (List TypeId) :=
  let n := p.types.size
  (List.range n).foldl (fun rows t => (p.interfacesOf t).foldl (pushRow · · t) rows) (Array.replicate n [])

/-- The hierarchy of a program. -/
def ofProgram (p : Program) : Hierarchy :=
  let w := Walk.ofProgram p
  { line := w.line, ranges := w.ranges, listers := listersIn p }

/-- The strict subtypes of a type, from the top down. -/
def subtypesOf (h : Hierarchy) (t : TypeId) : List TypeId := Walk.stretch h.ranges h.line t

/-! ### Implementers -/

/-- A search for implementers: what has been seen, what is to be looked at, and what was found. -/
structure Search where
  seen : Array Bool
  queue : List TypeId
  found : List TypeId := []

namespace Search

/-- The type is found, unless it was seen before. -/
def visit (s : Search) (t : TypeId) : Search :=
  if s.seen[t]? == some false then
    { seen := s.seen.setIfInBounds t true, queue := s.queue ++ [t], found := s.found ++ [t] }
  else s

/-- A type that lists an interface is found, and with it all its subtypes. -/
def visitLister (h : Hierarchy) (s : Search) (t : TypeId) : Search := (h.subtypesOf t).foldl visit (s.visit t)

/-- Look at a type: what lists it is found. -/
def expand (h : Hierarchy) (s : Search) (t : TypeId) : Search := (row h.listers t).foldl (visitLister h) s

/-- How many types there may be left to look at. -/
def weight (s : Search) : Nat := s.seen.count false + s.queue.length

theorem weight_visit (s : Search) (t : TypeId) : (s.visit t).weight = s.weight := by
  rw [visit]
  split
  · rename_i hnew
    have hcount := count_false_mark (beq_iff_eq.mp hnew)
    simp only [weight, List.length_append, List.length_singleton]
    omega
  · rfl

theorem weight_foldl {f : Search → TypeId → Search} (hf : ∀ s t, (f s t).weight = s.weight) :
    ∀ (l : List TypeId) (s : Search), (l.foldl f s).weight = s.weight
  | [], _ => rfl
  | t :: l, s => by rw [List.foldl_cons, weight_foldl hf l, hf]

theorem weight_expand (h : Hierarchy) (s : Search) (t : TypeId) : (s.expand h t).weight = s.weight := by
  refine weight_foldl (fun s t => ?_) _ s
  rw [visitLister, weight_foldl weight_visit, weight_visit]

/-- Look at one type after the other until the queue is empty. -/
def run (h : Hierarchy) (s : Search) : Search :=
  match _h : s.queue with
  | [] => s
  | t :: rest => run h ({ s with queue := rest }.expand h t)
termination_by s.weight
decreasing_by
  rw [weight_expand, weight, weight, _h, List.length_cons]
  exact Nat.lt_succ_self _

/-- The state in which a search for the implementers of a type begins. -/
def start (h : Hierarchy) (t : TypeId) : Search :=
  { seen := (Array.replicate h.listers.size false).setIfInBounds t true, queue := [t] }

end Search

/-- The implementers of an interface, in the order of their numbers. -/
def implementersOf (h : Hierarchy) (t : TypeId) : List TypeId :=
  if t < h.listers.size then inOrder ((Search.start h t).run h).found else []

/-! ### Answers that are kept -/

/-- The answers about implementers that have been given. -/
abbrev Memory := Table TypeId (List TypeId)

/-- What there is to say about a hierarchy: how many types the walk has not come to. -/
def notices (p : Program) : List Notice :=
  let n := p.types.size
  let seen := (Walk.ofProgram p).seen.count true
  (if seen = n then []
   else [.warn s!"{n - seen} type(s) are part of a base type cycle and have no subtypes"]) ++
  [.debug s!"Built type hierarchy over {n} types"]

end Hierarchy

end CallGraphs
