import Isolate.Tree.Build
import Isolate.Tree.Query
import Isolate.Tree.Text

/-!
# Asking a tree with plain values in it

`Tree.depth`, `Tree.count` and the walks take a plain value in place of a node for a leaf. A plain
value does not answer, though: whoever comes to one is refused there.

* `ask` - a question that a node answers from the answers of its children, asked from left to right;
  `askDepth`, `askCount` and `askPreorder` are three such questions;
* `askQueue`, `askStack` - the loops, which look up the children of every node that they come to;
* `askNodes`, `askStackDepth` - the nodes in an order and the depth, asked by these;
* `askNodesOf`, `askVariables`, `askConstants` - the nodes of a class, breadth first;
* `askEach` - what a function makes of them;
* `askTexts` - what all nodes are written as.
-/

namespace Isolate.Tree

-- Sums start from the built-in zero, whatever else is imported.
attribute [local instance (2000)] Zero.ofOfNat0

variable {ν β : Type}

/-! ## By recursion -/

mutual

/-- What a tree answers, if every node puts together the answers of its children. -/
def ask (answer : Tree ν → List β → β) : Tree ν → Except Fault β
  | seq kind terms => do
    let below ← askTerms answer terms
    .ok (answer (seq kind terms) below)
  | pow base exponent => do
    let b ← ask answer base
    let e ← ask answer exponent
    .ok (answer (pow base exponent) [b, e])
  | fn id argument => do
    let a ← ask answer argument
    .ok (answer (fn id argument) [a])
  | foreign value => .error (.notNode value)
  | t => .ok (answer t [])

/-- What some terms answer, from left to right. -/
def askTerms (answer : Tree ν → List β → β) : List (Signed (Tree ν)) → Except Fault (List β)
  | [] => .ok []
  | ⟨t, _⟩ :: rest => do
    let first ← ask answer t
    let others ← askTerms answer rest
    .ok (first :: others)

end

/-- The depth of a tree, asked node by node. -/
def askDepth : Tree ν → Except Fault Nat := ask fun _ below => 1 + below.foldr max 0

/-- The number of nodes, asked node by node. -/
def askCount : Tree ν → Except Fault Nat := ask fun _ below => 1 + below.sum

/-- The nodes in preorder, asked node by node. -/
def askPreorder : Tree ν → Except Fault (List (Tree ν)) := ask fun t below => t :: below.flatten

/-! ## By loops -/

/-- The nodes that a queue of nodes gives rise to. -/
def askQueue : List (Tree ν) → Except Fault (List (Tree ν))
  | [] => .ok []
  | t :: rest => do
    let node ← t.checked
    let others ← askQueue (rest ++ t.children)
    .ok (node :: others)
termination_by queue => (queue.map (·.count)).sum
decreasing_by
  simp only [List.map_append, List.sum_append, List.map_cons, List.sum_cons, count_eq_children t]
  omega

/-- The nodes of a tree in an order. -/
def askNodes (t : Tree ν) : Order → Except Fault (List (Tree ν))
  | .breadthFirst => askQueue [t]
  | .depthFirst => t.askPreorder

/-- The greatest distance on a stack of nodes, or below one of them, or seen before. -/
def askStack : List (Tree ν × Nat) → Nat → Except Fault Nat
  | [], deepest => .ok deepest
  | (t, distance) :: rest, deepest => do
    let _ ← t.checked
    askStack ((t.children.map (·, distance + 1)).reverse ++ rest) (max deepest distance)
termination_by stack => (stack.map (·.1.count)).sum
decreasing_by
  simp only [List.map_append, List.sum_append, List.map_cons, List.sum_cons, List.map_reverse,
    List.sum_reverse, List.map_map, Function.comp_def, count_eq_children t]
  omega

/-- The depth of a tree, asked with a stack. -/
def askStackDepth (t : Tree ν) : Except Fault Nat := askStack [(t, 1)] 0

/-! ## All nodes of a class -/

/-- The nodes of a class, asked one after the other, breadth first. -/
def askNodesOf (s : Selector) (t : Tree ν) : Except Fault (List (Tree ν)) := do
  let nodes ← t.askNodes .breadthFirst
  .ok (nodes.filter (isSelected s))

/-- The variables of a tree, breadth first. -/
def askVariables (t : Tree ν) : Except Fault (List (Tree ν)) := t.askNodesOf (.kind .var)

/-- The constants of a tree, breadth first. -/
def askConstants (t : Tree ν) : Except Fault (List (Tree ν)) := t.askNodesOf (.kind .const)

/-- What a function makes of the nodes of a class, breadth first. -/
def askEach {γ : Type} (f : Tree ν → Except Fault γ) (s : Selector) (t : Tree ν) :
    Except Fault (List γ) := do
  let nodes ← t.askNodesOf s
  nodes.mapM f

/-- What all nodes are written as, in preorder. -/
def askTexts (t : Tree Float) : Except Fault (List Name) := do
  let nodes ← t.askNodes .depthFirst
  nodes.mapM written

end Isolate.Tree
