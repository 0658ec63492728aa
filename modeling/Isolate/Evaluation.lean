import Isolate.Grid.Runs
import Isolate.Tree.Build

/-!
# Evaluation

A tree is evaluated with a `Kernel`, which says what numbers are, what the operations do, and
where they refuse. The terms of a sequence are all evaluated before they are combined, from zero or
one on and from left to right; a function is looked up after its argument is evaluated.

* `Kernel.combine` - the signed terms of a sum or a product;
* `Tree.evaluate` - the value of a tree where names have columns;
* `Arithmetic` - operations on single elements, which never refuse, with the kernel
  `Arithmetic.scalars` of elements and the kernel `Arithmetic.grids` of arrays;
* `Arithmetic.floats` - the arithmetic of doubles, and `Arithmetic.doubles`, the kernel of arrays of
  doubles.
-/

namespace Isolate

/-- Numbers of type `ν` among values of type `α`, and the operations on those values. -/
structure Kernel (ν α : Type) where
  number : ν → α
  zero : α
  one : α
  add : α → α → Except Fault α
  sub : α → α → Except Fault α
  mul : α → α → Except Fault α
  div : α → α → Except Fault α
  pow : α → α → Except Fault α
  apply : Builtin → α → Except Fault α

namespace Kernel

variable {ν α : Type}

/-- What an empty sequence stands for. -/
def start (K : Kernel ν α) : SeqKind → α
  | .sum => K.zero
  | .product => K.one

/-- One more signed term. -/
def step (K : Kernel ν α) (kind : SeqKind) (total : α) (term : Signed α) : Except Fault α :=
  match kind, term.positive with
  | .sum, true => K.add total term.item
  | .sum, false => K.sub total term.item
  | .product, true => K.mul total term.item
  | .product, false => K.div total term.item

/-- Signed terms put together from left to right. -/
def combine (K : Kernel ν α) (kind : SeqKind) (terms : List (Signed α)) : Except Fault α :=
  terms.foldlM (K.step kind) (K.start kind)

/-- The function that a plain value identifies, applied if it has a rule. -/
def call (K : Kernel ν α) (id : Datum) (argument : α) : Except Fault α := do
  let f ← Builtin.check id
  K.apply f argument

end Kernel

/-! ## Trees -/

/-- What names stand for: a column, or the fault that reading the column ends in. -/
abbrev Columns (α : Type) := String → Option (Except Fault α)

namespace Tree

variable {ν α : Type}

/-- The value of a variable leaf: its column, else the stored value. The columns are searched first,
so the name must be one that can be looked up. -/
def lookUp (K : Kernel ν α) (columns : Columns α) (name : Name) (stored : Option ν) :
    Except Fault α :=
  if name.isKey then
    match name.text?.bind columns, stored with
    | some column, _ => column
    | none, some value => .ok (K.number value)
    | none, none => .error (.unbound name)
  else .error (.notKey name)

mutual

/-- The value of a tree. -/
def evaluate (K : Kernel ν α) (columns : Columns α) : Tree ν → Except Fault α
  | const value => .ok (K.number value)
  | var name stored => lookUp K columns name stored
  | hole _ => .ok K.zero
  | seq kind terms => do
    let values ← evaluateTerms K columns terms
    K.combine kind values
  | pow base exponent => do
    let b ← evaluate K columns base
    let e ← evaluate K columns exponent
    K.pow b e
  | fn id argument => do
    let a ← evaluate K columns argument
    K.call (.int id) a
  | foreign value => .error (.notNode value)

/-- The values of some terms, from left to right. -/
def evaluateTerms (K : Kernel ν α) (columns : Columns α) :
    List (Signed (Tree ν)) → Except Fault (List (Signed α))
  | [] => .ok []
  | ⟨t, positive⟩ :: rest => do
    let value ← evaluate K columns t
    let others ← evaluateTerms K columns rest
    .ok (⟨value, positive⟩ :: others)

end

end Tree

/-! ## Elementwise arithmetic -/

/-- Operations on single elements, defined everywhere. -/
structure Arithmetic (α : Type) where
  zero : α
  one : α
  add : α → α → α
  sub : α → α → α
  mul : α → α → α
  div : α → α → α
  pow : α → α → α
  apply : Builtin → α → α

namespace Arithmetic

variable {α : Type}

/-- The kernel of single elements. -/
def scalars (A : Arithmetic α) : Kernel α α where
  number := id
  zero := A.zero
  one := A.one
  add a b := .ok (A.add a b)
  sub a b := .ok (A.sub a b)
  mul a b := .ok (A.mul a b)
  div a b := .ok (A.div a b)
  pow a b := .ok (A.pow a b)
  apply f a := .ok (A.apply f a)

/-- A function applied to an array. It is applied to the elements in order, along a single axis, and
what comes of that is put under the dimensions of the array again. -/
def applyFlat (A : Arithmetic α) (f : Builtin) (g : Grid α) : Grid α :=
  (g.flat.map (A.apply f)).reshape g.dims

/-- The kernel of arrays: every operation works element by element. -/
def grids (A : Arithmetic α) : Kernel α (Grid α) where
  number := Grid.scalar
  zero := Grid.scalar A.zero
  one := Grid.scalar A.one
  add := Grid.zipWith A.add
  sub := Grid.zipWith A.sub
  mul := Grid.zipWith A.mul
  div := Grid.zipWith A.div
  pow := Grid.zipWith A.pow
  apply f g := .ok (A.applyFlat f g)

/-- A function of doubles; a function without a rule is nowhere a number. -/
def floatFunction (f : Builtin) (x : Float) : Float :=
  match f with
  | .sin => x.sin
  | .cos => x.cos
  | .tan => x.tan
  | .asin => x.asin
  | .acos => x.acos
  | .atan => x.atan
  | .sqrt => x.sqrt
  | .exp => x.exp
  | .ln => x.log
  | _ => 0.0 / 0.0

/-- The arithmetic of doubles. Division by zero gives an infinity or is not a number, and so does
an argument outside the domain of a function. -/
def floats : Arithmetic Float where
  zero := 0.0
  one := 1.0
  add := (· + ·)
  sub := (· - ·)
  mul := (· * ·)
  div := (· / ·)
  pow := Float.pow
  apply := floatFunction

/-- A power of doubles whose exponent is shared by a run of elements. The simplest exponents are
worked out directly. Only the square root can be told apart from the general power: it is not a
number at minus infinity, where the general power is infinite, and keeps the sign of a zero. -/
def sharedPower (x exponent : Float) : Float :=
  if exponent == -1.0 then 1.0 / x
  else if exponent == 0.0 then 1.0
  else if exponent == 0.5 then x.sqrt
  else if exponent == 1.0 then x
  else if exponent == 2.0 then x * x
  else x.pow exponent

/-- The kernel of arrays of doubles. It works element by element, but for a power whose exponent is
one number throughout every run. -/
def doubles : Kernel Float (Grid Float) :=
  { floats.grids with
    pow := fun base exponent =>
      Grid.zipWith (if exponent.isHeldAgainst base then sharedPower else Float.pow) base exponent }

end Arithmetic

end Isolate
