import Isolate.Tree.Text

/-!
# Defects of a tree

`Tree.defects` lists what is wrong with a tree that was not built by this library, every defect
with the place where it is: a plain value in place of a node, a constant that is not finite, a leaf
without a name, a sequence without terms, or a function without an evaluation rule. A node's own
defect comes before those of its children, and the children come from left to right.
-/

namespace Isolate

/-! ## Places -/

/-- A step down from a node to one of its children. -/
inductive Place where
  | term (index : Nat)
  | base
  | exponent
  | argument
deriving Repr, DecidableEq

/-- A step down as text. -/
def Place.text : Place → String
  | term index => ".terms[" ++ Nat.repr index ++ "]"
  | base => ".base"
  | exponent => ".exponent"
  | argument => ".argument"

/-- The steps down from the root as text. -/
def Place.pathText (path : List Place) : String :=
  "root" ++ String.join (path.map text)

/-- The child that a step leads to. -/
def Tree.childAt? {ν : Type} : Tree ν → Place → Option (Tree ν)
  | seq _ terms, .term index => terms[index]?.map (·.item)
  | pow base _, .base => some base
  | pow _ exponent, .exponent => some exponent
  | fn _ argument, .argument => some argument
  | _, _ => none

/-- The node that some steps lead to. -/
def Tree.follow? {ν : Type} (t : Tree ν) : List Place → Option (Tree ν)
  | [] => some t
  | place :: path => (t.childAt? place).bind (follow? · path)

/-! ## Defects -/

/-- What can be wrong with a node by itself. -/
inductive Defect where
  | notNode (found : Datum)
  | notFinite (value : Float)
  | noName
  | noTerms (kind : SeqKind)
  | noRule (id : Int)
deriving DecidableEq

/-- A function code as it is shown: an entry of the table by name and number, a plain number as it
is. The two are equal, and a tree holds only the number, so it has to be said which it is. -/
def Builtin.codeText (isEntry : Bool) (id : Int) : String :=
  match if isEntry then ofCode? id else none with
  | some f => "<FunctionId." ++ f.name.toUpper ++ ": " ++ Int.repr id ++ ">"
  | none => Int.repr id

/-- A defect as text, where a function code is an entry of the table or a plain number. -/
def Defect.text (isEntry : Bool) : Defect → String
  | notNode found => "expected a Node, got " ++ found.typeName
  | notFinite value => "constant is not finite (" ++ Number.exact value ++ ")"
  | noName => "empty name"
  | noTerms kind => kind.kind.className ++ " has no terms"
  | noRule id => "function " ++ Builtin.codeText isEntry id ++ " has no evaluation rule"

/-- Whether a name is a text with at least one character. -/
def Name.isProper : Name → Bool
  | text name => name != ""
  | other _ => false

namespace Tree

/-- The defect of a node by itself. -/
def ownDefect? : Tree Float → Option Defect
  | const value => if Binary64.isFinite value then none else some (.notFinite value)
  | var name _ => if name.isProper then none else some .noName
  | hole name => if name.isProper then none else some .noName
  | seq kind terms => if terms.isEmpty then some (.noTerms kind) else none
  | pow _ _ => none
  | fn id _ => if (Builtin.ofCode? id).any Builtin.hasRule then none else some (.noRule id)
  | foreign value => some (.notNode value)

/-- The defects of a child, seen from the node that a step leads to it from. -/
def under (place : Place) (found : List (List Place × Defect)) : List (List Place × Defect) :=
  found.map fun d => (place :: d.1, d.2)

mutual

/-- The defects of a tree, each with the steps down from the root. -/
def defects (t : Tree Float) : List (List Place × Defect) :=
  (ownDefect? t).toList.map ([], ·) ++
    match t with
    | seq _ terms => termDefects 0 terms
    | pow base exponent => under .base (defects base) ++ under .exponent (defects exponent)
    | fn _ argument => under .argument (defects argument)
    | _ => []

/-- The defects of some terms, the first of which has a given index. -/
def termDefects (index : Nat) : List (Signed (Tree Float)) → List (List Place × Defect)
  | [] => []
  | ⟨t, _⟩ :: rest => under (.term index) (defects t) ++ termDefects (index + 1) rest

end

/-- A tree is valid when nothing is wrong with it. -/
def isValid (t : Tree Float) : Bool := t.defects.isEmpty

/-- The defects of a tree as text, where it is known at which nodes the function code is an entry of
the table. -/
def defectTexts (isEntry : List Place → Bool) (t : Tree Float) : List String :=
  t.defects.map fun d => Place.pathText d.1 ++ ": " ++ d.2.text (isEntry d.1)

end Tree

end Isolate
