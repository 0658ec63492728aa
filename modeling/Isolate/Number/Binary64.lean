/-!
# Doubles as whole numbers of steps

The finite doubles are the multiples of the step `2 ^ -1074` that have at most 53 significant
bits, so a double is read here as a sign and a *magnitude*, the 63 bits below the sign, and
`steps` counts the steps in a magnitude. Everything about a double's exact value is then a fact
about natural numbers.

* `classify` - a double as a signed magnitude, an infinity, or not a number;
* `integer?`, `rational?` - the exact value of a double;
* `nearest num den` - the magnitude nearest the ratio `num / den`, a tie going to the even one;
* `ofRatio` - the double nearest a signed ratio.
-/

namespace Isolate.Binary64

-- Powers of numbers are the built-in ones, whatever else is imported.
attribute [local instance (2000)] instPowNat

/-- The number of steps in one, as a power of two. -/
def stepBits : Nat := 1074

/-- The bits of a significand below its leading one. -/
def fractionBits : Nat := 52

/-- The bits of a double below its sign. -/
def magnitudeBits : Nat := 63

/-- The magnitude that stands for infinity; the finite magnitudes are the ones below it. -/
def infinity : Nat := 0x7FF0000000000000

/-- The value of a magnitude, counted in steps. The magnitudes below `2 ^ 52` are their own value;
above, the upper bits are an exponent and the lower ones the fraction of a significand. -/
def steps (magnitude : Nat) : Nat :=
  if magnitude < 2 ^ fractionBits then magnitude
  else (2 ^ fractionBits + magnitude % 2 ^ fractionBits) * 2 ^ (magnitude / 2 ^ fractionBits - 1)

/-! ## Reading a double -/

/-- What a double stands for. -/
inductive Class where
  | finite (negative : Bool) (magnitude : Nat)
  | infinite (negative : Bool)
  | nan
deriving Repr, DecidableEq

/-- The class of a double, read off its 64 bits. -/
def classify (x : Float) : Class :=
  let bits := x.toBits.toNat
  let negative := decide (2 ^ magnitudeBits ≤ bits)
  let magnitude := bits % 2 ^ magnitudeBits
  if magnitude < infinity then .finite negative magnitude
  else if magnitude = infinity then .infinite negative
  else .nan

/-- A double is finite when its magnitude lies below infinity. -/
def isFinite (x : Float) : Bool :=
  match classify x with
  | .finite .. => true
  | _ => false

/-- The whole number that a double stands for, if it stands for one. -/
def integer? (x : Float) : Option Int :=
  match classify x with
  | .finite negative magnitude =>
    if steps magnitude % 2 ^ stepBits = 0 then
      let whole := Int.ofNat (steps magnitude / 2 ^ stepBits)
      some (if negative then -whole else whole)
    else none
  | _ => none

/-- The exact value of a finite double. -/
def rational? (x : Float) : Option Rat :=
  match classify x with
  | .finite negative magnitude =>
    let count := Int.ofNat (steps magnitude)
    some (mkRat (if negative then -count else count) (2 ^ stepBits))
  | _ => none

/-! ## Rounding to a double -/

/-- A quotient rounded to the nearest natural number; a tie goes to the even neighbour. -/
def roundHalfEven (num den : Nat) : Nat :=
  let low := num / den
  let rest := num % den
  if 2 * rest < den then low
  else if den < 2 * rest then low + 1
  else low + low % 2

/-- The magnitude nearest the ratio `num / den`, infinity at most. Of the ratio, counted in steps,
the 53 leading binary digits are kept, or all of them when there are fewer; a carry out of the
significand lands in the exponent, which is where it belongs. -/
def nearest (num den : Nat) : Nat :=
  let scaled := num * 2 ^ stepBits
  let dropped := (scaled / den).log2 - fractionBits
  min infinity (dropped * 2 ^ fractionBits + roundHalfEven scaled (den * 2 ^ dropped))

/-- The double with a sign and a magnitude. -/
def ofMagnitude (negative : Bool) (magnitude : Nat) : Float :=
  Float.ofBits (UInt64.ofNat ((if negative then 2 ^ magnitudeBits else 0) + magnitude))

/-- The double nearest a signed ratio. -/
def ofRatio (negative : Bool) (num den : Nat) : Float :=
  ofMagnitude negative (nearest num den)

/-- The double nearest a whole number, unless the number is too large for any. -/
def ofInt? (n : Int) : Option Float :=
  let magnitude := nearest n.natAbs 1
  if magnitude < infinity then some (ofMagnitude (decide (n < 0)) magnitude) else none

example : classify 1.5 = .finite false 0x3FF8000000000000 := by decide +kernel
example : nearest 3 2 = 0x3FF8000000000000 := by decide +kernel
example : nearest (2 ^ 53 + 1) 1 = nearest (2 ^ 53) 1 := by decide +kernel
example : nearest (2 ^ 1024 - 2 ^ 970) 1 = infinity := by decide +kernel
example : nearest (2 ^ 1024 - 2 ^ 970 - 1) 1 = infinity - 1 := by decide +kernel

end Isolate.Binary64
