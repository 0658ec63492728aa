import Isolate.Grid.Nested
import Isolate.Symbolic.Collect
import Isolate.Symbolic.Operand
import Isolate.Symbolic.Value

/-!
# Values with symbols left over

A call may leave some symbols without a value. Its elements are doubles until they meet such a
symbol and forms from then on. The outcome is a number only where the symbols have vanished: where
one was multiplied by zero, was taken from itself, or met a value that is not a number.

* `Element` - a double, a form, or what no function can be applied to;
* `Element.arithmetic` - the operations on elements;
* `Element.number?` - the double that is left in the end.
-/

namespace Isolate.Symbolic

/-- An element of a call that leaves symbols without a value. -/
inductive Element where
  | number (value : Float)
  | formula (value : Form)
  /-- A function of a form: functions have values at doubles only. -/
  | stuck
deriving Inhabited

namespace Element

/-- An operation on elements, by its meaning for doubles and its meaning for forms. -/
def combine (onFloats : Float → Float → Float) (onForms : Form → Form → Form) :
    Element → Element → Element
  | number x, number y => number (onFloats x y)
  | number x, formula b => formula (onForms (.scalar (.ofReal x)) b)
  | formula a, number y => formula (onForms a (.scalar (.ofReal y)))
  | formula a, formula b => formula (onForms a b)
  | stuck, _ => stuck
  | _, stuck => stuck

/-- A power of elements. A form with the exponent zero stays a power. -/
def raise : Element → Element → Element
  | formula a, number y =>
    if y == 0.0 then formula (.plainPower a (.scalar (.ofReal y)))
    else formula (a.power (.scalar (.ofReal y)))
  | a, b => combine Float.pow Form.power a b

/-- The operations on elements. -/
def arithmetic : Arithmetic Element where
  zero := number 0.0
  one := number 1.0
  add := combine (· + ·) fun a b => .ofSum [a, b]
  sub := combine (· - ·) fun a b => .ofSum [a, b.neg]
  mul := combine (· * ·) fun a b => .ofProduct [a, b]
  div := combine (· / ·) fun a b => .ofProduct [a, b.power (.scalar (.ofInt (-1)))]
  pow := raise
  apply f
    | number x => number (Arithmetic.floatFunction f x)
    | _ => stuck

/-- The operations on elements, with powers by a shared exponent and powers of plain numbers. -/
def powers : Operand.Powers Element where
  arithmetic := arithmetic
  shared
    | number x, number y => number (Arithmetic.sharedPower x y)
    | a, b => raise a b
  plain
    | number x, number y => (Operand.plainPower x y).map number
    | a, b => .ok (raise a b)

/-- The double that an element is in the end, if its symbols have vanished. -/
def number? : Element → Option Float
  | number x => some x
  | formula (.scalar c) =>
    match c with
    | .infinite negative => some (Binary64.ofMagnitude negative Binary64.infinity)
    | .undefined => some (0.0 / 0.0)
    | c => c.rational?.map nearestFloat
  | _ => none

end Element

/-- An array of elements as an array of doubles, if every element is one. -/
def doublesOf (g : Grid Element) : Except Fault (Grid Float) :=
  let values := g.map Element.number?
  if values.toNested.leaves.all Option.isSome then .ok (values.map (Option.getD · 0.0))
  else .error .arguments

end Isolate.Symbolic
