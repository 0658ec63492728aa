import Isolate.Evaluation

/-!
# Operands of a call

A call works with plain numbers, which are the constants and whatever is made of them by arithmetic
alone, with its arguments, which are arrays even without dimensions, and with what is computed from
those. The differences show in powers: the exponent of a power that involves no array is not held
against anything, so that such a power is never worked out as a square root, and a power of plain
numbers has no value where it is not real or exceeds every number.

* `Operand` - an array and its kind;
* `Operand.Powers` - operations on elements, with powers for the three cases;
* `Operand.kernel` - the operations on operands.
-/

namespace Isolate

variable {α : Type}

/-- What an operand of a call is. -/
inductive OperandKind where
  | plain
  | computed
  | argument
deriving DecidableEq

/-- An array or a number in a call. -/
structure Operand (α : Type) where
  grid : Grid α
  kind : OperandKind

namespace Operand

/-- An argument of a call. -/
def argument (g : Grid α) : Operand α := ⟨g, .argument⟩

/-- A plain number. -/
def number (a : α) : Operand α := ⟨.scalar a, .plain⟩

/-- Whether an operand is a plain number. -/
def isPlain (x : Operand α) : Bool := x.kind == .plain

/-- Whether an operand is an array: an argument is, and everything with dimensions. -/
def isArray (x : Operand α) : Bool := x.kind == .argument || !x.grid.dims.isEmpty

/-- The outcome of an operation on two operands. -/
def outcome (x y : Operand α) (g : Grid α) : Operand α :=
  ⟨g, if x.isPlain && y.isPlain then .plain else .computed⟩

/-- An operation on the elements of two operands. -/
def zipWith (f : α → α → α) (x y : Operand α) : Except Fault (Operand α) :=
  (x.grid.zipWith f y.grid).map (outcome x y)

/-- Whether the exponent of a power is one number throughout every run, where an array is
involved. -/
def sharesExponent (base exponent : Operand α) : Bool :=
  (base.isArray || exponent.isArray) && exponent.grid.isHeldAgainst base.grid

/-- Operations on elements. A power has a meaning of its own where its exponent is shared by a run
of elements, and where its operands are plain numbers. -/
structure Powers (α : Type) where
  arithmetic : Arithmetic α
  shared : α → α → α
  plain : α → α → Except Fault α

/-- A power of operands. -/
def pow (P : Powers α) (base exponent : Operand α) : Except Fault (Operand α) :=
  if base.isPlain && exponent.isPlain then do
    let b ← base.grid.toScalar
    let e ← exponent.grid.toScalar
    (P.plain b e).map number
  else if sharesExponent base exponent then zipWith P.shared base exponent
  else zipWith P.arithmetic.pow base exponent

/-- The operations on operands. -/
def kernel (P : Powers α) : Kernel α (Operand α) where
  number := number
  zero := number P.arithmetic.zero
  one := number P.arithmetic.one
  add := zipWith P.arithmetic.add
  sub := zipWith P.arithmetic.sub
  mul := zipWith P.arithmetic.mul
  div := zipWith P.arithmetic.div
  pow := pow P
  apply f x := .ok ⟨x.grid.map (P.arithmetic.apply f), .computed⟩

/-- A power of plain doubles. A root of a negative number is not real, and a power of finite numbers
that exceeds every double is refused. -/
def plainPower (x y : Float) : Except Fault Float :=
  if Binary64.isFinite x && Binary64.isFinite y then
    if x < 0.0 && y != y.floor then .error .notReal
    else
      let power := x.pow y
      if Binary64.isFinite power then .ok power else .error .overflow
  else .ok (x.pow y)

/-- The operations on doubles. -/
def doubles : Powers Float := ⟨.floats, Arithmetic.sharedPower, plainPower⟩

end Operand

end Isolate
