/-! Forests given by the children of each node, walked from the top: a node comes before everything below it,
    and the children come in their given order. Nodes are numbers, and the walk goes down as many levels as
    it is told, which for a forest of `n` nodes is never more than `n`. -/

namespace CallGraphs.Forest

/-- The node `t` and what is below it down to `depth` levels, each node before its children. -/
def preorder (kids : Nat → List Nat) : Nat → Nat → List Nat
  | 0, t => [t]
  | depth + 1, t => t :: (kids t).flatMap (preorder kids depth)

/-- What is strictly below the node `t`. -/
def below (kids : Nat → List Nat) : Nat → Nat → List Nat
  | 0, _ => []
  | depth + 1, t => (kids t).flatMap (preorder kids depth)

theorem preorder_eq_cons (kids : Nat → List Nat) (t : Nat) :
    ∀ depth, preorder kids depth t = t :: below kids depth t
  | 0 => rfl
  | _ + 1 => rfl

end CallGraphs.Forest
