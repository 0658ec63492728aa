import Isolate.Tree.Binding
import Isolate.Tree.Build

/-!
# Changing a tree in place

`subtree?` and `replace` reach the node at a path of child indices. A `Patch` assigns to one field
of a node without any check, which is how a tree can come to hold what the constructors refuse. A
`Change` is whatever can be done to a node in place, checked or not, and `changeAt` does it to the
node at a path.
-/

namespace Isolate

namespace Tree

variable {ν : Type}

/-! ## Nodes by path -/

/-- A node with one child replaced; there may be no child with the index. -/
def setChild (t : Tree ν) (index : Nat) (child : Tree ν) : Tree ν :=
  match t, index with
  | seq kind terms, i => seq kind (terms.modify i fun s => ⟨child, s.positive⟩)
  | pow _ exponent, 0 => pow child exponent
  | pow base _, 1 => pow base child
  | fn id _, 0 => fn id child
  | t, _ => t

/-- The node at a path of child indices. -/
def subtree? (t : Tree ν) : List Nat → Option (Tree ν)
  | [] => some t
  | index :: path => t.children[index]?.bind (subtree? · path)

/-- The tree with the node at a path replaced. -/
def replace (t : Tree ν) (new : Tree ν) : List Nat → Tree ν
  | [] => new
  | index :: path =>
    match t.children[index]? with
    | some child => t.setChild index (replace child new path)
    | none => t

end Tree

/-! ## Unchecked assignment -/

/-- An assignment to one field of a node. -/
inductive Patch (ν : Type) where
  | function (id : Int)
  | argument (value : Tree ν)
  | base (value : Tree ν)
  | exponent (value : Tree ν)
  | name (value : Name)
  | addTerm (value : Tree ν) (positive : Bool)
  | dropTerm (index : Int)

/-- An index into a list of some length; a negative one counts from the end. -/
def indexFrom (length : Nat) (index : Int) : Nat :=
  (if index < 0 then index + length else index).toNat

/-- A node after an assignment; a node without the field stays as it is. -/
def Tree.patch {ν : Type} : Tree ν → Patch ν → Tree ν
  | fn _ argument, .function id => fn id argument
  | fn id _, .argument value => fn id value
  | pow _ exponent, .base value => pow value exponent
  | pow base _, .exponent value => pow base value
  | var _ stored, .name value => var value stored
  | hole _, .name value => hole value
  | seq kind terms, .addTerm value positive => seq kind (terms ++ [⟨value, positive⟩])
  | seq kind terms, .dropTerm index => seq kind (terms.eraseIdx (indexFrom terms.length index))
  | t, _ => t

/-! ## Changes -/

/-- What can be done to a node in place. -/
inductive Change (ν : Type) where
  /-- A value assigned to the variables below the node that have a name. -/
  | assign (name : String) (value : Except Fault ν)
  /-- A value stored on the node itself. -/
  | store (value : Except Fault ν)
  /-- A term added to the node. -/
  | addTerm (term : Tree ν) (positive : Bool)
  /-- A field of the node assigned to. -/
  | patch (patch : Patch ν)

/-- A node after a change, and the fault that stopped the change if there was one. -/
def Tree.change {ν : Type} (t : Tree ν) : Change ν → Tree ν × Option Fault
  | .assign name value => t.assign name value
  | .store value => t.store value
  | .addTerm term positive =>
    match t.addTerm term positive with
    | .ok t' => (t', none)
    | .error fault => (t, some fault)
  | .patch patch => (t.patch patch, none)

/-- A tree after a change to the node at a path; where there is no node, there is no change. -/
def Tree.changeAt {ν : Type} (t : Tree ν) (path : List Nat) (change : Change ν) :
    Tree ν × Option Fault :=
  match t.subtree? path with
  | some node =>
    let (node', fault) := node.change change
    (t.replace node' path, fault)
  | none => (t, some .undefined)

end Isolate
