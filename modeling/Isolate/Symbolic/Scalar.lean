import Isolate.Number.Binary64

/-!
# Constants of formulas

A `Scalar` is a constant that stands in a formula. Whole numbers and their ratios are exact. A
constant that is given with a fractional part is rounded: it has 53 significant bits, while its
exponent has no bounds, and so does whatever is computed from it. Two signed infinities, the value
of a quotient by zero, and what has no value at all are constants as well.

* `Scalar.add`, `Scalar.mul`, `Scalar.pow` - arithmetic, exact as long as its operands are exact;
* `Scalar.ofInt`, `Scalar.ofReal` - the constants of whole numbers and of doubles;
* `Scalar.rational?` - the value of a finite constant.
-/

namespace Isolate.Symbolic

-- Powers of numbers are the built-in ones, whatever else is imported.
attribute [local instance (2000)] instPowNat

/-- A constant of a formula. -/
inductive Scalar where
  /-- A ratio of whole numbers. -/
  | exact (value : Rat)
  /-- A binary fraction of 53 significant bits. -/
  | rounded (value : Rat)
  | infinite (negative : Bool)
  /-- A quotient by zero, infinite without a sign. -/
  | pole
  /-- No value. -/
  | undefined
deriving DecidableEq, Inhabited

/-! ## Rounding -/

/-- The value `n * 2 ^ e`. -/
def binary (n : Int) (e : Int) : Rat :=
  if e < 0 then mkRat n (2 ^ (-e).toNat) else mkRat (n * 2 ^ e.toNat) 1

/-- A positive ratio rounded to a whole number of units `2 ^ e`, a tie going to the even one. -/
def roundToUnit (num den : Nat) (e : Int) : Nat :=
  if e < 0 then Binary64.roundHalfEven (num * 2 ^ (-e).toNat) den
  else Binary64.roundHalfEven num (den * 2 ^ e.toNat)

/-- The exponent of two that leaves a positive ratio with a number of bits before the point. -/
def unitExponent (bits num den : Nat) : Int :=
  let guess : Int := Int.ofNat num.log2 - Int.ofNat den.log2 - Int.ofNat bits
  let whole := if guess < 0 then num * 2 ^ (-guess).toNat / den else num / (den * 2 ^ guess.toNat)
  guess + (Int.ofNat whole.log2 + 1 - Int.ofNat bits)

/-- A rational number rounded to some significant bits. -/
def significant (bits : Nat) (q : Rat) : Rat :=
  if q.num = 0 then 0
  else
    let e := unitExponent bits q.num.natAbs q.den
    let n := Int.ofNat (roundToUnit q.num.natAbs q.den e)
    binary (if q.num < 0 then -n else n) e

/-- The significant bits of a rounded constant. -/
def precision : Nat := 53

/-- The bits that are kept while a power of a rounded constant is worked out. -/
def workingPrecision : Nat := 320

/-- A whole power of a rational number. Powers of one and of its opposite take no work. -/
def ratPow (q : Rat) (n : Nat) : Rat :=
  if q.den = 1 ∧ q.num = 1 then 1
  else if q.den = 1 ∧ q.num = -1 then if n % 2 = 0 then 1 else -1
  else if q.num = 0 then if n = 0 then 1 else 0
  else mkRat (q.num ^ n) (q.den ^ n)

/-- A whole power by repeated squaring, the leading bits being kept at every step. -/
def leadingPow (q : Rat) (n : Nat) : Rat :=
  if _h : n = 0 then 1
  else
    let half := leadingPow q (n / 2)
    let square := significant workingPrecision (half * half)
    if n % 2 = 0 then square else significant workingPrecision (q * square)
termination_by n

namespace Scalar

/-! ## Values -/

/-- The constant of a whole number. -/
def ofInt (n : Int) : Scalar := exact n

/-- One. -/
def one : Scalar := exact 1

/-- A rounded constant; zero is exact. -/
def ofRounded (q : Rat) : Scalar :=
  if q.num = 0 then exact 0 else rounded (significant precision q)

/-- The constant that a double stands for, rounded even where it is a whole number. -/
def ofReal (x : Float) : Scalar :=
  match Binary64.classify x with
  | .nan => undefined
  | .infinite negative => infinite negative
  | .finite .. => ofRounded ((Binary64.rational? x).getD 0)

/-- The value of a finite constant. -/
def rational? : Scalar → Option Rat
  | exact q => some q
  | rounded q => some q
  | _ => none

/-- The whole number that an exact constant is. -/
def integer? : Scalar → Option Int
  | exact q => if q.den = 1 then some q.num else none
  | _ => none

/-- Whether a constant is zero. -/
def isZero (c : Scalar) : Bool := c == exact 0

/-- Whether a constant is less than zero. -/
def isNegative : Scalar → Bool
  | exact q => q.num < 0
  | rounded q => q.num < 0
  | infinite negative => negative
  | _ => false

/-- Whether a constant is greater than zero. -/
def isPositive : Scalar → Bool
  | exact q => 0 < q.num
  | rounded q => 0 < q.num
  | infinite negative => !negative
  | _ => false

/-- Whether a constant is exact. -/
def isExact : Scalar → Bool
  | exact _ => true
  | _ => false

/-! ## Arithmetic -/

/-- The opposite of a constant. -/
def neg : Scalar → Scalar
  | exact q => exact (-q)
  | rounded q => rounded (-q)
  | infinite negative => infinite !negative
  | pole => pole
  | undefined => undefined

/-- A constant without its sign. -/
def abs (c : Scalar) : Scalar := if c.isNegative then c.neg else c

/-- The sum of two constants. If one is rounded, the other is rounded first. -/
def add : Scalar → Scalar → Scalar
  | exact a, exact b => exact (a + b)
  | undefined, _ => undefined
  | _, undefined => undefined
  | pole, pole => undefined
  | pole, infinite _ => undefined
  | infinite _, pole => undefined
  | pole, _ => pole
  | _, pole => pole
  | infinite a, infinite b => if a = b then infinite a else undefined
  | infinite a, _ => infinite a
  | _, infinite b => infinite b
  | exact a, rounded b => ofRounded (significant precision a + b)
  | rounded a, exact b => ofRounded (a + significant precision b)
  | rounded a, rounded b => ofRounded (a + b)

/-- The product of two constants. Zero times an infinity has no value. -/
def mul : Scalar → Scalar → Scalar
  | exact a, exact b => exact (a * b)
  | undefined, _ => undefined
  | _, undefined => undefined
  | pole, c => if c.isZero then undefined else pole
  | c, pole => if c.isZero then undefined else pole
  | infinite a, c => if c.isZero then undefined else infinite (a != c.isNegative)
  | c, infinite b => if c.isZero then undefined else infinite (b != c.isNegative)
  | exact a, rounded b => ofRounded (significant precision a * b)
  | rounded a, exact b => ofRounded (a * significant precision b)
  | rounded a, rounded b => ofRounded (a * b)

/-- A power of a constant with a positive whole number. -/
def natPow (c : Scalar) (n : Nat) : Scalar :=
  match c with
  | exact q => exact (ratPow q n)
  | rounded q => ofRounded (leadingPow q n)
  | infinite negative => infinite (negative && n % 2 = 1)
  | pole => pole
  | undefined => undefined

/-- The inverse of a constant. -/
def inv : Scalar → Scalar
  | exact q => if q.num = 0 then pole else exact q⁻¹
  | rounded q => ofRounded q⁻¹
  | infinite _ => exact 0
  | pole => exact 0
  | undefined => undefined

/-- A power of a constant with a whole number; the zeroth power of anything is one. -/
def pow (c : Scalar) : Int → Scalar
  | .ofNat 0 => one
  | .ofNat n => c.natPow n
  | .negSucc n =>
    match c with
    | rounded q => ofRounded (leadingPow q (n + 1))⁻¹
    | c => (c.natPow (n + 1)).inv

/-- The quotient of two constants. A rounded dividend is divided at once, an exact one is multiplied
with the inverse. -/
def div (c d : Scalar) : Scalar :=
  match c, d.rational? with
  | rounded a, some b => if b.num = 0 then pole else ofRounded (a / significant precision b)
  | c, _ => c.mul d.inv

/-! ## Order -/

/-- The place of a kind of constant among constants. -/
def rank : Scalar → Nat
  | infinite true => 0
  | exact _ => 1
  | rounded _ => 1
  | infinite false => 2
  | pole => 3
  | undefined => 4

/-- The order of constants: by value, an exact one before a rounded one of the same value. -/
def order (c d : Scalar) : Ordering :=
  match c.rational?, d.rational? with
  | some a, some b =>
    if a < b then .lt
    else if b < a then .gt
    else compare (!c.isExact) (!d.isExact)
  | _, _ => compare c.rank d.rank

end Scalar

end Isolate.Symbolic
