import Isolate.Symbolic.Scalar

/-!
# Roots of rational numbers

A product of powers of rational numbers with rational exponents is taken apart into primes. The
powers of one prime are put together, whole powers leave the product as a rational coefficient, and
the rest are powers of primes with exponents between zero and one; primes with the same exponent
stand under one root. The opposite of one counts as a prime of its own, whose square is one.

* `primePowers` - the prime powers of a natural number, small primes only;
* `Radical.ofPowers` - the coefficient and the roots of a product of powers.
-/

namespace Isolate.Symbolic

-- Powers of numbers are the built-in ones, whatever else is imported.
attribute [local instance (2000)] instPowNat

/-! ## Primes -/

/-- The greatest divisor that is tried; what is left then counts as a power of a prime. -/
def divisorLimit : Nat := 2 ^ (15 : Nat)

/-- The whole part of a root of a number, found bit by bit. -/
def wholeRoot (n k : Nat) : Nat :=
  (List.range (n.log2 / k + 1)).foldr (fun bit root =>
    if (root + 2 ^ bit) ^ k ≤ n then root + 2 ^ bit else root) 0

/-- A number as a power with the greatest exponent, where its base exceeds every divisor that is
tried. -/
def asPower (n : Nat) : Nat × Nat :=
  let exponents := (List.range (n.log2 / divisorLimit.log2 + 1)).reverse.filter (2 ≤ ·)
  match exponents.find? fun k => wholeRoot n k ^ k == n with
  | some k => (wholeRoot n k, k)
  | none => (n, 1)

/-- How often a number is divisible by another, and what is left. -/
def divideOut (fuel n d : Nat) : Nat × Nat :=
  match fuel with
  | 0 => (0, n)
  | fuel + 1 =>
    if n % d = 0 then
      let (count, rest) := divideOut fuel (n / d) d
      (count + 1, rest)
    else (0, n)

/-- The prime powers of a number whose divisors below `d` have been taken out. -/
def primePowersFrom (fuel n d : Nat) : List (Nat × Nat) :=
  match fuel with
  | 0 => if n ≤ 1 then [] else [asPower n]
  | fuel + 1 =>
    if n ≤ 1 then []
    else if n < d * d then [(n, 1)]
    else if n % d = 0 then
      let (count, rest) := divideOut n.log2 (n / d) d
      (d, count + 1) :: primePowersFrom fuel rest (d + 1)
    else primePowersFrom fuel n (d + 1)

/-- The prime powers of a natural number. -/
def primePowers (n : Nat) : List (Nat × Nat) := primePowersFrom divisorLimit n 2

/-! ## Products of powers -/

/-- A power of an integer with a rational exponent. -/
structure Root where
  base : Int
  exponent : Rat
deriving DecidableEq

namespace Radical

/-- A power joined to the powers of other bases. -/
def joinBase (r : Root) : List Root → List Root
  | [] => [r]
  | s :: rest =>
    if r.base = s.base then ⟨s.base, s.exponent + r.exponent⟩ :: rest else s :: joinBase r rest

/-- A power under the root with the same exponent; the opposite of one stays alone. -/
def joinExponent (r : Root) : List Root → List Root
  | [] => [r]
  | s :: rest =>
    if r.exponent = s.exponent ∧ r.base ≠ -1 ∧ s.base ≠ -1 then
      ⟨s.base * r.base, s.exponent⟩ :: rest
    else s :: joinExponent r rest

/-- The primes of a power of a rational number other than zero. -/
def primes (base exponent : Rat) : List Root :=
  (if base.num < 0 then [⟨-1, exponent⟩] else [])
    ++ (primePowers base.num.natAbs).map (fun p => ⟨p.1, p.2 * exponent⟩)
    ++ (primePowers base.den).map (fun p => ⟨p.1, -(p.2 * exponent)⟩)

/-- The whole part of a power, and the rest with an exponent from zero to below one. -/
def splitWhole (r : Root) : Rat × Root :=
  let whole := r.exponent.floor
  let coefficient : Rat :=
    if r.base = -1 then if whole % 2 = 0 then 1 else -1
    else if whole < 0 then (ratPow r.base whole.natAbs)⁻¹ else ratPow r.base whole.natAbs
  (coefficient, ⟨r.base, r.exponent - whole⟩)

/-- The coefficient and the roots of a product of powers of rational numbers other than zero. -/
def ofPowers (powers : List (Rat × Rat)) : Rat × List Root :=
  let joined := (powers.flatMap fun p => primes p.1 p.2).foldl (fun rs r => joinBase r rs) []
  let parts := joined.map splitWhole
  let roots := (parts.map (·.2)).filter fun r => r.exponent ≠ 0
  (parts.foldl (fun c p => c * p.1) 1, roots.foldl (fun rs r => joinExponent r rs) [])

end Radical

end Isolate.Symbolic
