import Isolate.Symbolic.Form
import Isolate.Symbolic.Polynomial
import Isolate.Symbolic.Radical

/-!
# Rational functions

A `Fraction` is a rational function as a product: a coefficient and whole powers of different
primitive polynomials, so that products and powers multiply nothing out. Polynomials that are
negatives or multiples of each other have the same primitive part, hence a common power leaves a sum
before the rest of it is multiplied out. A fraction is zero when its coefficient is.

* `Fraction.sum`, `Fraction.mul`, `Fraction.pow?` - the operations;
* `Form.fraction?` - the rational function that a form stands for, if it stands for one.
-/

namespace Isolate.Symbolic

/-! ## Factors -/

/-- A whole power of a polynomial. -/
structure Factor where
  base : Polynomial
  exponent : Int
deriving DecidableEq

namespace Factor

/-- A factor put among factors that are ordered by their bases; one with the exponent zero is left
out. -/
def join (f : Factor) : List Factor → List Factor
  | [] => [f]
  | g :: rest =>
    match f.base.order g.base with
    | .lt => f :: g :: rest
    | .gt => g :: join f rest
    | .eq =>
      if f.exponent + g.exponent = 0 then rest
      else ⟨g.base, g.exponent + f.exponent⟩ :: rest

/-- The exponent of a polynomial among some factors. -/
def exponentIn (p : Polynomial) (fs : List Factor) : Int :=
  match fs.find? fun f => f.base = p with
  | some f => f.exponent
  | none => 0

/-- The inverses of some factors. -/
def inverses (fs : List Factor) : List Factor := fs.map fun f => ⟨f.base, -f.exponent⟩

end Factor

/-! ## Fractions -/

/-- A rational function: a coefficient times whole powers of primitive polynomials. -/
structure Fraction where
  coefficient : Rat
  factors : List Factor
deriving DecidableEq

namespace Fraction

/-- A rational number as a fraction. -/
def const (c : Rat) : Fraction := ⟨c, []⟩

/-- The symbol with a number as a fraction. -/
def symbol (index : Nat) : Fraction := ⟨1, [⟨.symbol index, 1⟩]⟩

/-- Whether a fraction is zero. -/
def isZero (f : Fraction) : Bool := f.coefficient == 0

/-- The product of two fractions. -/
def mul (f g : Fraction) : Fraction :=
  if f.isZero || g.isZero then const 0
  else ⟨f.coefficient * g.coefficient, g.factors.foldl (fun fs h => h.join fs) f.factors⟩

/-- A power with a whole number; zero has no negative powers. -/
def pow? (f : Fraction) (n : Int) : Option Fraction :=
  if n = 0 then some (const 1)
  else if f.isZero then if n < 0 then none else some f
  else
    let c := f.coefficient ^ n.natAbs
    some ⟨if n < 0 then c⁻¹ else c, f.factors.map fun g => ⟨g.base, g.exponent * n⟩⟩

/-- The powers of symbols with some exponents, the first of which belongs to the symbol with the
given number. -/
def symbols (index : Nat) : Exponents → Fraction
  | [] => const 1
  | e :: rest =>
    let others := symbols (index + 1) rest
    if e = 0 then others else mul ⟨1, [⟨.symbol index, e⟩]⟩ others

/-- A polynomial as a fraction. -/
def ofPolynomial (p : Polynomial) : Fraction :=
  if p.isZero then const 0
  else
    let q := p.primitive
    let part : Fraction := if q = .const 1 then const p.leading else ⟨p.leading, [⟨q, 1⟩]⟩
    mul (symbols 0 p.content) part

/-- A fraction multiplied out, where no exponent is negative. -/
def expanded (f : Fraction) : Polynomial :=
  f.factors.foldl (fun p g => p.mul (g.base.pow g.exponent.toNat)) (.const f.coefficient)

/-- The powers that all of some fractions have in common: every polynomial with its least exponent,
which may be negative. -/
def common (fs : List Fraction) : List Factor :=
  let bases := (fs.flatMap fun f => f.factors.map (·.base)).eraseDups
  let least (p : Polynomial) : Int :=
    match fs.map fun f => Factor.exponentIn p f.factors with
    | [] => 0
    | e :: rest => rest.foldl min e
  (bases.map fun p => Factor.mk p (least p)).filter fun g => g.exponent ≠ 0

/-- A fraction joined to the one with the same factors. -/
def join (f : Fraction) : List Fraction → List Fraction
  | [] => [f]
  | g :: rest =>
    if g.factors = f.factors then ⟨g.coefficient + f.coefficient, g.factors⟩ :: rest
    else g :: join f rest

/-- The sum of some fractions. The common powers are set aside, and what is left is multiplied
out. -/
def sum (fs : List Fraction) : Fraction :=
  let terms := (fs.foldl (fun gs f => f.join gs) []).filter fun f => !f.isZero
  match terms with
  | [f] => f
  | terms =>
    let shared := common terms
    let rest := terms.map fun f => (f.mul ⟨1, Factor.inverses shared⟩).expanded
    mul (ofPolynomial (.ofTerms rest.flatten)) (shared.foldl (fun f g => f.mul ⟨1, [g]⟩) (const 1))

end Fraction

/-! ## Forms -/

namespace Form

mutual

/-- The rational function that a form stands for, where the symbols are numbered by their places
among some names. There is none if a named number occurs, if a function is applied, if an exponent
is not a whole number, if a constant is not finite, or if zero is inverted. -/
def fraction? (names : List String) : Form → Option Fraction
  | scalar c => c.rational?.map .const
  | named _ => none
  | symbol name => (names.idxOf? name).map .symbol
  | sum terms => (termFractions? names terms).map .sum
  | product c factors => do
    let q ← c.rational?
    let f ← factorsFraction? names factors
    some (.mul (.const q) f)
  | apply _ _ => none

/-- The rational functions that some terms stand for. -/
def termFractions? (names : List String) : List (Weighted Form) → Option (List Fraction)
  | [] => some []
  | ⟨c, a⟩ :: rest => do
    let q ← c.rational?
    let f ← fraction? names a
    let others ← termFractions? names rest
    some (.mul (.const q) f :: others)

/-- The rational function that a product of factors stands for. -/
def factorsFraction? (names : List String) : List (Powered Form) → Option Fraction
  | [] => some (.const 1)
  | ⟨b, e⟩ :: rest => do
    let n ← e.integer?
    let f ← fraction? names b
    let power ← f.pow? n
    let g ← factorsFraction? names rest
    some (.mul power g)

end

/-- Whether a form stands for the rational function zero. -/
def isZero (a : Form) : Bool :=
  match a with
  | scalar c => c.isZero
  | a =>
    match a.fraction? a.occurrences.eraseDups with
    | some f => f.isZero
    | none => false

end Form

end Isolate.Symbolic
