import Isolate.Tree.Query
import Isolate.Tree.Text
import Isolate.Tree.Binding
import Isolate.Valuation

/-!
# Expressions

An `Expression` is a formula together with what it is written as, which is found once and then kept
until the expression is told to forget it or a variable is assigned to. Changes made to the formula
directly do not reach what is kept. A name that is nothing cannot be told from an empty place, so it
is not kept.
-/

namespace Isolate

/-- A formula and what it is written as, if that is kept. -/
structure Expression where
  root : Tree Float
  kept : Option Name

namespace Expression

/-- The expression of a formula; a plain value is no root. -/
def ofTree : Tree Float → Except Fault Expression
  | .foreign value => .error (.notRoot value)
  | root => .ok ⟨root, none⟩

/-- What is kept of a name: everything but nothing. -/
def keep : Name → Option Name
  | .other .null => none
  | name => some name

/-- What an expression is written as, which is kept from then on. -/
def written (e : Expression) : Except Fault Name × Expression :=
  match e.kept with
  | some name => (.ok name, e)
  | none =>
    match e.root.written with
    | .ok name => (.ok name, { e with kept := keep name })
    | .error fault => (.error fault, e)

/-- The text of an expression. It is kept even where it is no text, and then refused. -/
def text (e : Expression) : Except Fault String × Expression :=
  let (name, e') := e.written
  (name.bind Name.written, e')

/-- The word for an expression around what it is written as, which is kept from then on. -/
def described (e : Expression) : Except Fault String × Expression :=
  let (name, e') := e.written
  (name.map fun name => "Expression(" ++ name.quoted ++ ")", e')

/-- The text forgotten. -/
def forget (e : Expression) : Expression := { e with kept := none }

/-- An expression after assigning to a variable; the text is forgotten unless the assignment was
stopped. -/
def assign (e : Expression) (name : String) (value : Except Fault Float) :
    Expression × Option Fault :=
  match e.root.assign name value with
  | (root, none) => (⟨root, none⟩, none)
  | (root, some fault) => (⟨root, e.kept⟩, some fault)

/-- A copy of an expression, without a text. -/
def clone (e : Expression) : Except Fault Expression := do
  let root ← e.root.clone
  ofTree root

/-- An expression whose formula is changed or replaced directly. -/
def withRoot (e : Expression) (root : Tree Float) : Expression := { e with root }

end Expression

end Isolate
