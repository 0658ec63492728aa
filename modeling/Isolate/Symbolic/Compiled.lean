import Isolate.Number.Reading
import Isolate.Symbolic.Calculus
import Isolate.Symbolic.Fraction
import Isolate.Symbolic.Function
import Isolate.Symbolic.Partial

/-!
# The algebra of forms

Forms are an algebra of symbols: they are collected when they are put together, and simplified where
they stand for the rational function zero. A form is compiled by naming its arguments; a call gives
every argument a value. What has been collected away plays no part in a call, neither its values nor
its shape.

* `Machine` - what a compiled form computes with, and `Machine.arrays`, where that is arrays of
  doubles;
* `Form.compile` - a form as a function;
* `Form.calculus` - the algebra, compiled for a machine.
-/

namespace Isolate

-- Powers of numbers are the built-in ones, whatever else is imported.
attribute [local instance (2000)] instPowNat

open Symbolic

/-! ## Calls -/

namespace Symbolic

/-- The number of digits that a whole number in a compiled formula can have. -/
def digitLimit : Nat := 4300

/-- Whether a constant can be written into a compiled formula. -/
def Scalar.isWritable : Scalar → Bool
  | exact q => q.num.natAbs < 10 ^ digitLimit && q.den < 10 ^ digitLimit
  | _ => true

/-- The digits of a rounded constant in a compiled formula. -/
def writtenDigits : Nat := 15

/-- The number of digits before the point of a positive ratio, less one; it is negative for a ratio
below one. -/
def leadingPower (num den : Nat) : Int :=
  let guess : Int := Int.ofNat (Nat.repr num).length - Int.ofNat (Nat.repr den).length
  if num * 10 ^ (-guess).toNat < den * 10 ^ guess.toNat then guess - 1 else guess

/-- The size of a rational number as a decimal of the written digits. Three more digits are found,
and a half is rounded up. -/
def writtenDecimal (q : Rat) : Decimal :=
  let unit := leadingPower q.num.natAbs q.den - (writtenDigits + 2)
  let digits := q.num.natAbs * 10 ^ (-unit).toNat / (q.den * 10 ^ unit.toNat)
  ⟨(digits + 500) / 1000, unit + 3⟩

/-- The double that a constant of a compiled formula stands for. A ratio is divided once; a rounded
constant is written with fifteen digits. -/
def Scalar.double : Scalar → Except Fault Float
  | exact q =>
    let magnitude := Binary64.nearest q.num.natAbs q.den
    if magnitude < Binary64.infinity then .ok (Binary64.ofMagnitude (q.num < 0) magnitude)
    else if q.den = 1 then .error .tooLarge
    else .error .overflow
  | rounded q =>
    let d := writtenDecimal q
    .ok (Binary64.ofMagnitude (q.num < 0) (Number.magnitude d))
  | infinite negative => .ok (Binary64.ofMagnitude negative Binary64.infinity)
  | pole => .ok (0.0 / 0.0)
  | undefined => .ok (0.0 / 0.0)

namespace Form

variable {ν α : Type}

/-- How a compiled formula names a constant that it does not write in digits. -/
def constantName? : Scalar → Option String
  | .infinite false => some "inf"
  | .pole => some "nan"
  | .undefined => some "nan"
  | _ => none

/-- How a compiled formula names a named number. -/
def numberName : NamedNumber → String
  | .euler => "e"
  | .pi => "pi"

/-- A reading where the taken names hide constants and named numbers. -/
def readingOver (K : Kernel ν α) (constant : Scalar → Except Fault α)
    (named : NamedNumber → Except Fault α) (taken : List String)
    (symbol : String → Except Fault α) : Reading ν α where
  kernel := K
  constant c :=
    match constantName? c with
    | some name => if taken.contains name then symbol name else constant c
    | none => constant c
  named c :=
    if taken.contains (numberName c) then symbol (numberName c) else named c
  symbol := symbol

/-- The name under which a compiled formula calls a function. -/
def callName : Builtin → String
  | .asin => "arcsin"
  | .acos => "arccos"
  | .atan => "arctan"
  | .ln => "log"
  | .cot => "tan"
  | f => f.name

/-- Whether a symbol or an argument hides a function that the form calls. -/
def hidesFunction (a : Form) (names : List String) : Bool :=
  a.functions.any fun f => (names ++ a.occurrences).contains (callName f)

/-- The value of a form at arrays of doubles, where some symbols are no arguments. -/
def callPartly (a : Form) (names : List String) (arguments : List (Grid Float)) :
    Except Fault (Grid Float) := do
  let outcome ← a.evaluate (readingOver (Operand.kernel Element.powers)
    (fun c => c.double.map (Operand.number ∘ .number)) (fun c => .ok (.number (.number c.double)))
    (names ++ a.occurrences) fun name =>
      match (names.zip arguments).lookup name with
      | some g => .ok (.argument (g.map .number))
      | none => .ok (.number (.formula (.symbol name))))
  doublesOf outcome.grid

end Form

/-! ## Machines -/

/-- What a compiled form computes with: its operands, of type `β`, are made of the arguments and the
constants that can be written. -/
structure Machine (ν β α : Type) where
  kernel : Kernel ν β
  constant : Scalar → Except Fault β
  named : NamedNumber → Except Fault β
  argument : α → β
  result : β → α
  isWritable : Scalar → Bool
  /-- The value of a form where some symbols are no arguments. -/
  partly : Form → List String → List α → Except Fault α

/-- Arrays of doubles. A symbol that is no argument must vanish. -/
def Machine.arrays : Machine Float (Operand Float) (Grid Float) where
  kernel := Operand.kernel Operand.doubles
  constant c := c.double.map Operand.number
  named c := .ok (.number c.double)
  argument := Operand.argument
  result := Operand.grid
  isWritable := Scalar.isWritable
  partly := Form.callPartly

section

variable {ν α β : Type}

/-- What the constants and symbols of a form are at some arguments, which are named in order. An
argument with the name of a constant takes its place. -/
def Machine.reading (M : Machine ν β α) (names : List String) (arguments : List α) : Reading ν β :=
  Form.readingOver M.kernel M.constant M.named names fun name =>
    match (names.zip arguments).lookup name with
    | some x => .ok (M.argument x)
    | none => .error .arguments

namespace Form

/-- The value of a form at some arguments. None of their names may be that of a function that is
called. -/
def call (M : Machine ν β α) (a : Form) (names : List String) (arguments : List α) :
    Except Fault α :=
  if a.hidesFunction names ∨ names.length ≠ arguments.length then .error .arguments
  else if a.occurrences.all names.contains then
    (a.evaluate (M.reading names arguments)).map M.result
  else M.partly a names arguments

/-- A form as a function of arguments with different names. -/
def compile (M : Machine ν β α) (names : List String) (a : Form) :
    Except Fault (List α → Except Fault α) :=
  if names.eraseDups.length < names.length then .error .repeatedArgument
  else if a.scalars.all M.isWritable then .ok (a.call M names)
  else .error .tooLong

/-! ## The algebra -/

/-- The symbols of a form, sorted. -/
def symbols (a : Form) : List String := sortedOnce a.occurrences

/-- A plain number as a form. -/
def ofDatum : Datum → Except Fault Form
  | .int n => .ok (.scalar (.ofInt n))
  | .real x => .ok (.scalar (.ofReal x))
  | _ => .error .undefined

/-- The algebra of forms. -/
def calculus (M : Machine ν β α) : Calculus Form α where
  integer n := scalar (.ofInt n)
  real x := scalar (.ofReal x)
  symbol := symbol
  read := ofDatum
  neg := neg
  sub a b := ofSum [a, b.neg]
  sum := ofSum
  product := ofProduct
  power := raisedTo
  apply := function
  simplify a := if a.isZero then scalar (.ofInt 0) else a
  isZero a := a == scalar (.ofInt 0)
  symbols := symbols
  compile := compile M

end Form

end

end Symbolic

end Isolate
