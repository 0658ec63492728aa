import Isolate.Tree.Basic

/-!
# Walks over a tree

* `preorder` lists a node before its children, and the children from left to right;
* `breadthFirst` lists the nodes by a queue, first in first out;
* `stackDepth` finds the depth with an explicit stack of nodes, each with its distance from the
  root.

Both loops end because every turn takes one node away and adds only its children.
-/

namespace Isolate.Tree

-- Sums start from the built-in zero, whatever else is imported.
attribute [local instance (2000)] Zero.ofOfNat0

variable {ν : Type}

/-! ## The two orders -/

mutual

/-- The nodes of a tree, each before its children. -/
def preorder : Tree ν → List (Tree ν)
  | seq kind terms => seq kind terms :: preorderTerms terms
  | pow base exponent => pow base exponent :: (preorder base ++ preorder exponent)
  | fn id argument => fn id argument :: preorder argument
  | t => [t]

/-- The nodes of some terms, term by term. -/
def preorderTerms : List (Signed (Tree ν)) → List (Tree ν)
  | [] => []
  | ⟨t, _⟩ :: rest => preorder t ++ preorderTerms rest

end

/-- A node comes first, then whatever its children give, child by child. -/
theorem preorder_eq (t : Tree ν) : t.preorder = t :: t.children.flatMap preorder := by
  cases t with
  | seq k ts =>
    have h : ∀ ts : List (Signed (Tree ν)),
        preorderTerms ts = ts.flatMap fun t => t.item.preorder := by
      intro ts
      induction ts with
      | nil => rfl
      | cons t ts ih => simp [preorderTerms, ih]
    simp [preorder, children, h, List.flatMap_map]
  | _ => simp [preorder, children]

/-- The nodes that a queue of nodes gives rise to: the first of the queue, then the others followed
by the children of the first. -/
def drainQueue : List (Tree ν) → List (Tree ν)
  | [] => []
  | t :: rest => t :: drainQueue (rest ++ t.children)
termination_by queue => (queue.map (·.count)).sum
decreasing_by
  simp only [List.map_append, List.sum_append, List.map_cons, List.sum_cons, count_eq_children t]
  omega

/-- The nodes of a tree, level by level. -/
def breadthFirst (t : Tree ν) : List (Tree ν) := drainQueue [t]

/-! ## Depth by a stack -/

/-- The greatest distance on a stack of nodes, or below one of them, or seen before. The children
of a node are pushed in order, so that the last of them comes off first. -/
def drainStack : List (Tree ν × Nat) → Nat → Nat
  | [], deepest => deepest
  | (t, distance) :: rest, deepest =>
    drainStack ((t.children.map (·, distance + 1)).reverse ++ rest) (max deepest distance)
termination_by stack => (stack.map (·.1.count)).sum
decreasing_by
  simp only [List.map_append, List.sum_append, List.map_cons, List.sum_cons, List.map_reverse,
    List.sum_reverse, List.map_map, Function.comp_def, count_eq_children t]
  omega

/-- The depth of a tree, found without recursion on it. -/
def stackDepth (t : Tree ν) : Nat := drainStack [(t, 1)] 0

end Isolate.Tree

namespace Isolate

/-! ## Orders by name -/

/-- The order in which the nodes of a tree are listed. -/
inductive Order where
  | breadthFirst
  | depthFirst
deriving Repr, DecidableEq

/-- The order with a name. -/
def Order.named (name : String) : Except Fault Order :=
  if name = "breadth_first" then .ok .breadthFirst
  else if name = "depth_first" then .ok .depthFirst
  else .error (.noSuchOrder name)

/-- The nodes of a tree in an order. -/
def Tree.nodes {ν : Type} (t : Tree ν) : Order → List (Tree ν)
  | .breadthFirst => t.breadthFirst
  | .depthFirst => t.preorder

end Isolate
