import Isolate.Tree.Walk

/-!
# Questions about a tree

* `Tree.nodesOf` - the nodes that a `Selector` selects, breadth first;
* `Tree.occurrences`, `Tree.usage` - the variable names with repeats, and how often each occurs,
  breadth first;
* `Tree.variableNames` - the names as the nodes are met in preorder, each once;
* `Tree.freeVariables` - the same names, sorted.
-/

namespace Isolate

/-- A class of nodes. -/
inductive Selector where
  | all
  | sequences
  | kind (k : Kind)
deriving Repr, DecidableEq

/-- The class of nodes with a name. -/
def Selector.named? (name : String) : Option Selector :=
  if name = "Node" then some .all
  else if name = "SequenceNode" then some .sequences
  else (Kind.all.find? (·.className == name)).map .kind

namespace Tree

variable {ν : Type}

/-- Whether a node belongs to a class. -/
def isSelected (s : Selector) (t : Tree ν) : Bool :=
  match s with
  | .all => t.kind?.isSome
  | .sequences => t.kind? == some .sum || t.kind? == some .product
  | .kind k => t.kind? == some k

/-- The nodes of a class, breadth first. -/
def nodesOf (s : Selector) (t : Tree ν) : List (Tree ν) :=
  t.breadthFirst.filter (isSelected s)

/-! ## Names -/

/-- The name of a variable leaf. -/
def variableName? : Tree ν → Option Name
  | var name _ => some name
  | _ => none

/-- The names of the variable leaves, breadth first. -/
def occurrences (t : Tree ν) : List Name := t.breadthFirst.filterMap variableName?

/-- The names of the variable leaves in preorder, each where it is first met. -/
def variableNames (t : Tree ν) : List Name := (t.preorder.filterMap variableName?).eraseDups

end Tree

/-- Every element once, in the order of the first occurrences, with the number of occurrences. -/
def tally {α : Type} [BEq α] (items : List α) : List (α × Nat) :=
  items.eraseDups.map fun a => (a, items.count a)

/-- Some texts sorted by code point, each once. -/
def sortedOnce (texts : List String) : List String :=
  texts.eraseDups.mergeSort fun a b => decide (a ≤ b)

namespace Tree

variable {ν : Type}

/-- How many variable leaves each name has, in the order of the first occurrences, breadth
first. -/
def usage (t : Tree ν) : List (Name × Nat) := tally t.occurrences

/-- The names of the variables of a tree, sorted. -/
def freeVariables (t : Tree ν) : List String :=
  sortedOnce (t.variableNames.filterMap Name.text?)

end Tree

end Isolate
