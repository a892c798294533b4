import CallGraphs.Program.Basic
import CallGraphs.Rows

/-! All types of a program in one line, from base types down. A walk starts at each type without a base type. It puts
    a type into the line when it comes to it, then goes on with the types that derive from it, and notes the length of
    the line both when it comes to a type and when it leaves it. What stands in the line between these two places is
    the type with everything that derives from it. The walk never comes to a type that derives from itself, or to one
    below it. -/

namespace CallGraphs

/-! ### Base types and derived types -/

/-- The types by their base types: which of them have none, and which derive from each. -/
structure TypeGraph where
  roots : Array Bool
  derived : Array (List TypeId)

namespace TypeGraph

/-- The base type of a type, if it is a type of the program. -/
def linkOf? (p : Program) (t : TypeId) : Option TypeId := (p.baseOf t).filter (· < p.types.size)

/-- Note the base type of a type. -/
def link (p : Program) (g : TypeGraph) (t : TypeId) : TypeGraph :=
  match linkOf? p t with
  | none => g
  | some b => { roots := g.roots.setIfInBounds t false, derived := pushRow g.derived b t }

/-- The base types and derived types of a program. -/
def ofProgram (p : Program) : TypeGraph :=
  let n := p.types.size
  (List.range n).foldl (link p) { roots := Array.replicate n true, derived := Array.replicate n [] }

/-- The types without a base type, in the order of their numbers. -/
def rootTypes (g : TypeGraph) : List TypeId := (List.range g.roots.size).filter fun t => g.roots[t]? == some true

end TypeGraph

/-! ### The walk -/

/-- What a walk has still to do: come to a type, or leave it. -/
inductive Mark where
  | enter (t : TypeId)
  | leave (t : TypeId)
  deriving DecidableEq

/-- A walk down from base types. For each type there is a range of the line, from the place where it stands to the
    place that the walk has come to when it leaves the type. -/
structure Walk where
  pending : List Mark := []
  seen : Array Bool
  ranges : Array (Nat × Nat)
  line : Array TypeId := #[]

namespace Walk

/-- Nothing seen of `n` types. -/
def start (n : Nat) : Walk := { seen := Array.replicate n false, ranges := Array.replicate n (0, 0) }

/-- Take up the first mark; `rest` are the others. -/
def step (derived : Array (List TypeId)) (w : Walk) (rest : List Mark) : Mark → Walk
  | .leave t => { w with pending := rest, ranges := w.ranges.modify t fun r => (r.1, w.line.size) }
  | .enter t =>
    if w.seen[t]? == some false then
      { pending := (row derived t).map .enter ++ .leave t :: rest
        seen := w.seen.setIfInBounds t true
        ranges := w.ranges.modify t fun r => (w.line.size, r.2)
        line := w.line.push t }
    else { w with pending := rest }

/-- How much there may be left to do. A type that is entered adds its derived types and its leaving. -/
def weight (derived : Array (List TypeId)) (w : Walk) : Nat :=
  w.seen.count false * (longestRow derived + 2) + w.pending.length

theorem weight_step_lt {derived : Array (List TypeId)} {w : Walk} {m : Mark} {rest : List Mark}
    (h : w.pending = m :: rest) : (w.step derived rest m).weight derived < w.weight derived := by
  have hlength : w.pending.length = rest.length + 1 := by rw [h]; rfl
  cases m with
  | leave t =>
    simp only [step, weight]
    omega
  | enter t =>
    rw [step]
    split
    · rename_i hnew
      have hcount := count_false_mark (beq_iff_eq.mp hnew)
      have hrow := length_row_le derived t
      simp only [weight, List.length_append, List.length_map, List.length_cons, ← hcount, Nat.add_mul]
      omega
    · simp only [weight]
      omega

/-- Take up marks until there are none. -/
def run (derived : Array (List TypeId)) (w : Walk) : Walk :=
  match _h : w.pending with
  | [] => w
  | m :: rest => run derived (w.step derived rest m)
termination_by w.weight derived
decreasing_by exact weight_step_lt _h

/-- Walk down from one type. -/
def descend (derived : Array (List TypeId)) (w : Walk) (root : TypeId) : Walk :=
  run derived { w with pending := .enter root :: w.pending }

/-- Walk down from every type without a base type, one after the other. -/
def ofGraph (g : TypeGraph) : Walk := g.rootTypes.foldl (descend g.derived) (start g.roots.size)

/-- The walk over all types of a program. -/
def ofProgram (p : Program) : Walk := ofGraph (TypeGraph.ofProgram p)

/-- The part of the line that follows the place of a type, up to where the walk has left the type. -/
def stretch (ranges : Array (Nat × Nat)) (line : Array TypeId) (t : TypeId) : List TypeId :=
  match ranges[t]? with
  | none => []
  | some (first, last) => if last ≤ first then [] else (line.extract (first + 1) last).toList

end Walk

end CallGraphs
