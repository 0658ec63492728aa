import Isolate.Number.Binary64

/-!
# Decimal values of doubles

`shortest` finds, for a magnitude, the decimal with the fewest digits that reads back as that
magnitude, and of several the one nearest to it. It works on exact natural numbers: a double and the
two midpoints that separate it from its neighbours are whole numbers of half steps.
-/

namespace Isolate

-- Powers of numbers are the built-in ones, whatever else is imported.
attribute [local instance (2000)] instPowNat

/-- The value `coefficient * 10 ^ exponent`. -/
structure Decimal where
  coefficient : Nat
  exponent : Int
deriving Repr, DecidableEq

namespace Decimal

/-- The numerator of a decimal, as a ratio of natural numbers. -/
def num (d : Decimal) : Nat := d.coefficient * 10 ^ d.exponent.toNat

/-- The denominator of a decimal, as a ratio of natural numbers. -/
def den (d : Decimal) : Nat := 10 ^ (-d.exponent).toNat

/-- The power of ten of the leading digit: `10 ^ (leading m)` is the greatest power of ten that
does not exceed the value. The smallest double exceeds `10 ^ -324`. -/
def leading (magnitude : Nat) : Int :=
  let scaled := Binary64.steps magnitude * 10 ^ (324 : Nat) / 2 ^ Binary64.stepBits
  Int.ofNat (Nat.repr scaled).length - 325

/-! ## Decimals that read back -/

/-- Twice the steps of the midpoint below a magnitude; nothing lies below zero. -/
def lowerMidpoint (magnitude : Nat) : Nat :=
  Binary64.steps (magnitude - 1) + Binary64.steps magnitude

/-- Twice the steps of the midpoint above a magnitude. -/
def upperMidpoint (magnitude : Nat) : Nat :=
  Binary64.steps magnitude + Binary64.steps (magnitude + 1)

/-- A decimal reads back as a magnitude when it lies between the two midpoints; the midpoints
themselves are ties, which go to an even magnitude. -/
def readsBack (d : Decimal) (magnitude : Nat) : Bool :=
  let value := d.num * 2 ^ (Binary64.stepBits + 1)
  let low := lowerMidpoint magnitude * d.den
  let high := upperMidpoint magnitude * d.den
  if magnitude % 2 = 0 then low ≤ value && value ≤ high else low < value && value < high

/-- The decimal nearest a magnitude among the two neighbours on the grid of `10 ^ exponent` that
read back. At equal distance the even coefficient is taken. -/
def closest? (magnitude : Nat) (exponent : Int) : Option Decimal :=
  let num := Binary64.steps magnitude * 10 ^ (-exponent).toNat
  let den := 2 ^ Binary64.stepBits * 10 ^ exponent.toNat
  let below : Decimal := ⟨num / den, exponent⟩
  let above : Decimal := ⟨num / den + 1, exponent⟩
  match below.readsBack magnitude, above.readsBack magnitude with
  | true, true => some ⟨Binary64.roundHalfEven num den, exponent⟩
  | true, false => some below
  | false, true => some above
  | false, false => none

/-- All the digits of a magnitude: the step is a terminating decimal. -/
def exact (magnitude : Nat) : Decimal :=
  ⟨Binary64.steps magnitude * 5 ^ Binary64.stepBits, -Int.ofNat Binary64.stepBits⟩

/-- The decimal with the fewest digits that reads back as a magnitude. Seventeen digits always
do. -/
def shortest (magnitude : Nat) : Decimal :=
  let top := leading magnitude
  ((List.range 17).findSome? fun dropped => closest? magnitude (top - Int.ofNat dropped)).getD
    (exact magnitude)

end Decimal

end Isolate
