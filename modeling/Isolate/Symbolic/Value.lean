import Isolate.Evaluation
import Isolate.Symbolic.Form

/-!
# Values of forms

A form is evaluated in a kernel in the order in which its sums and products are written. The terms
of a sum are added from left to right, starting with the first. In a product the constant comes
first; the factors with negative exponents are multiplied with each other and divide the rest, and a
minus sign is applied last. A power whose exponent is exactly one half is a square root.

* `Reading` - the operations, and the values of constants and symbols;
* `Form.evaluate` - the value of a form.
-/

namespace Isolate.Symbolic

-- Powers of numbers are the built-in ones, whatever else is imported.
attribute [local instance (2000)] instPowNat

variable {ν α : Type}

/-- What the value of a form is made of: the operations, and the values of constants, named numbers
and symbols. -/
structure Reading (ν α : Type) where
  kernel : Kernel ν α
  constant : Scalar → Except Fault α
  named : NamedNumber → Except Fault α
  symbol : String → Except Fault α

namespace Reading

/-- A function of a value. A cotangent is the inverse of a tangent. -/
def apply (R : Reading ν α) (f : Builtin) (x : α) : Except Fault α :=
  if f = .cot then do
    let numerator ← R.constant .one
    let t ← R.kernel.apply .tan x
    R.kernel.div numerator t
  else R.kernel.apply f x

/-- Some values multiplied from left to right. -/
def multiply (R : Reading ν α) : List α → Except Fault α
  | [] => R.constant .one
  | x :: rest => rest.foldlM R.kernel.mul x

/-- Some values added from left to right. -/
def add (R : Reading ν α) : List α → Except Fault α
  | [] => R.constant (.ofInt 0)
  | x :: rest => rest.foldlM R.kernel.add x

/-- A power of a value, by the exponent and its value. -/
def raise (R : Reading ν α) (e : Form) (base exponent : α) : Except Fault α :=
  if e = .one then .ok base
  else if e = .scalar (.exact (1 / 2)) then R.kernel.apply .sqrt base
  else R.kernel.pow base exponent

/-- A product of a constant, numerators and denominators. A coefficient of size one is multiplied
with only where there is no other numerator. -/
def quotient (R : Reading ν α) (c : Scalar) (numerators denominators : List α) :
    Except Fault α := do
  let first ← if c.abs = .one ∧ !numerators.isEmpty then .ok []
    else (R.constant c.abs).map ([·])
  let top ← R.multiply (first ++ numerators)
  let size ← if denominators.isEmpty then .ok top
    else do
      let bottom ← R.multiply denominators
      R.kernel.div top bottom
  if c.isNegative then do
    let sign ← R.constant (.ofInt (-1))
    R.kernel.mul sign size
  else .ok size

end Reading

namespace Form

/-- The exponent of a factor as a divisor, if it is written as one: the opposite of a negative
rational exponent. A power that stands alone is a divisor of one only as an inverse of a square
root. -/
def divisorExponent? (alone : Bool) : Form → Option Scalar
  | scalar (.exact q) =>
    if q.num < 0 ∧ (!alone ∨ q = -1 / 2) then some (.exact (-q)) else none
  | _ => none

/-- Whether a power of a constant is not real: a root of a negative number. -/
def isImaginary : Form → Form → Bool
  | scalar c, scalar (.exact q) => c.isNegative && q.den != 1
  | _, _ => false

/-- Whether a function of a constant takes a whole range of values: a circular function of an
infinity, or an inverse tangent of a quotient by zero. -/
def isUnsettled : Builtin → Form → Bool
  | .sin, scalar (.infinite _) => true
  | .cos, scalar (.infinite _) => true
  | .tan, scalar (.infinite _) => true
  | .atan, scalar .pole => true
  | _, _ => false

/-- Whether a function is applied to a whole number of more than a machine word. -/
def isTooWide : Form → Bool
  | scalar (.exact q) => q.den == 1 && !(-2 ^ (63 : Nat) ≤ q.num && q.num < 2 ^ (64 : Nat))
  | _ => false

mutual

/-- The value of a form. -/
def evaluate (R : Reading ν α) : Form → Except Fault α
  | scalar c => R.constant c
  | named c => R.named c
  | symbol name => R.symbol name
  | sum terms => do
    let values ← evaluateTerms R terms
    R.add values
  | product c factors => do
    let (numerators, denominators) ← evaluateFactors R (c = .one ∧ factors.length = 1) factors
    R.quotient c numerators denominators
  | apply f argument =>
    if isUnsettled f argument then .error .unsettled
    else if isTooWide argument then .error .tooWide
    else do
      let x ← evaluate R argument
      R.apply f x

/-- The values of some terms, from left to right. -/
def evaluateTerms (R : Reading ν α) : List (Weighted Form) → Except Fault (List α)
  | [] => .ok []
  | ⟨c, a⟩ :: rest => do
    let x ← match a with
      | scalar _ => R.constant c
      | product d factors => do
        let c := c.mul d
        let (numerators, denominators) ← evaluateFactors R (c = .one ∧ factors.length = 1) factors
        R.quotient c numerators denominators
      | a => do
        let x ← evaluate R a
        R.quotient c [x] []
    let others ← evaluateTerms R rest
    .ok (x :: others)

/-- The values of the numerators and of the denominators among some factors, from left to right. -/
def evaluateFactors (R : Reading ν α) (alone : Bool) :
    List (Powered Form) → Except Fault (List α × List α)
  | [] => .ok ([], [])
  | ⟨b, e⟩ :: rest => do
    if isImaginary b e then .error .notReal
    else if (isHalf e.scalar? && isTooWide b) || (b = euler && isTooWide e) then .error .tooWide
    else
      if b = euler then do
        let x ← if e = one then R.named .euler
          else do
            let y ← evaluate R e
            R.kernel.apply .exp y
        let (numerators, denominators) ← evaluateFactors R alone rest
        .ok (x :: numerators, denominators)
      else do
        let x ← evaluate R b
        match divisorExponent? alone e with
        | some d => do
          let y ← R.constant d
          let z ← R.raise (scalar d) x y
          let (numerators, denominators) ← evaluateFactors R alone rest
          .ok (numerators, z :: denominators)
        | none => do
          let y ← evaluate R e
          let z ← R.raise e x y
          let (numerators, denominators) ← evaluateFactors R alone rest
          .ok (z :: numerators, denominators)

end

end Form

end Isolate.Symbolic
