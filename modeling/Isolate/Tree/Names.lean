import Isolate.Tree.Ask
import Isolate.Tree.Visit

/-!
# The names of the variables

The names that are used in a tree can be asked for in several ways, each by a walk of its own:

* `gatheredNames` - a visitor adds the name of every variable to a set;
* `nameCounts` - a dictionary counts the names of the variables that a queue lists;
* `orderedNames` - the set in order.

A name that cannot be looked up fits neither into a set nor into a dictionary.
-/

namespace Isolate

namespace Name

/-- Whether a name counts as one of some others. -/
def isAmong (name : Name) (names : List Name) : Bool := names.any name.isSame

/-- Something that can only be done with a name that can be looked up. -/
def ifKey {α : Type} (name : Name) (next : α) : Except Fault α :=
  if name.isKey then .ok next else .error (.notKey name)

/-- A set of names with one more, unless that is among them already. -/
def addTo (name : Name) (names : List Name) : List Name :=
  if name.isAmong names then names else names ++ [name]

/-- A dictionary of counts after one more use of a name. A name without a count is put last. -/
def countIn (name : Name) : List (Name × Nat) → List (Name × Nat)
  | [] => [(name, 1)]
  | (key, uses) :: rest =>
    if name.isSame key then (key, uses + 1) :: rest else (key, uses) :: countIn name rest

end Name

namespace Tree

variable {ν : Type}

/-- A visitor that adds the names of the variables to a set. -/
def nameGatherer : Visitor ν (List Name)
  | .var, var name _, names => name.ifKey (name.addTo names)
  | _, _, names => .ok names

/-- The set of the names that a visitor gathers. -/
def gatheredNames (t : Tree ν) : Except Fault (List Name) := t.acceptAll nameGatherer []

/-- How many variables have each name, the names as they are first met, breadth first. -/
def nameCounts (t : Tree ν) : Except Fault (List (Name × Nat)) := do
  let leaves ← t.askVariables
  (leaves.filterMap variableName?).foldlM (fun counts name => name.ifKey (name.countIn counts)) []

/-- The gathered names in order. -/
def orderedNames (t : Tree ν) : Except Fault (List Name) := do
  let names ← t.gatheredNames
  match Name.sorted? names with
  | some each => .ok each
  | none => .error .notOrdered

end Tree

end Isolate
