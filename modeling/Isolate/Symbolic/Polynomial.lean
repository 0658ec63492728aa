/-!
# Polynomials

A polynomial with rational coefficients is a list of terms, each with the exponents of the symbols,
which are numbered, and a coefficient. `Polynomial.ofTerms` sorts the terms, adds up those with
equal exponents and drops zeros, so that a polynomial is zero exactly when its list is empty.
`Polynomial.primitive` is what is left of a polynomial without the products of symbols that divide
it and without its leading coefficient.
-/

namespace Isolate.Symbolic

-- Powers of numbers are the built-in ones, whatever else is imported.
attribute [local instance (2000)] instPowNat

/-! ## Exponents -/

/-- The exponents of the symbols in a product, by the number of the symbol; the list stops after the
last exponent that is not zero. -/
abbrev Exponents := List Nat

/-- The exponents of a product. -/
def Exponents.add : Exponents → Exponents → Exponents
  | [], n => n
  | m, [] => m
  | a :: m, b :: n => (a + b) :: Exponents.add m n

/-- The lexicographic order of exponents, where what is missing is zero. -/
def Exponents.order : Exponents → Exponents → Ordering
  | [], [] => .eq
  | [], _ :: _ => .lt
  | _ :: _, [] => .gt
  | a :: m, b :: n => (compare a b).then (Exponents.order m n)

/-- Exponents without zeros at the end. -/
def Exponents.trim (m : Exponents) : Exponents := (m.reverse.dropWhile (· == 0)).reverse

/-- The exponents of the greatest product that divides two products. -/
def Exponents.common (m n : Exponents) : Exponents := Exponents.trim (List.zipWith min m n)

/-- The differences of exponents. -/
def Exponents.differences : Exponents → Exponents → Exponents
  | m, [] => m
  | [], _ => []
  | a :: m, b :: n => (a - b) :: Exponents.differences m n

/-- The exponents of a quotient of products. -/
def Exponents.sub (m n : Exponents) : Exponents := (Exponents.differences m n).trim

/-! ## Polynomials -/

/-- A term of a polynomial. -/
structure Monomial where
  exponents : Exponents
  coefficient : Rat
deriving DecidableEq

/-- A sum of terms. -/
abbrev Polynomial := List Monomial

namespace Polynomial

/-- Terms with equal exponents that stand side by side, added up. -/
def combine : List Monomial → List Monomial
  | [] => []
  | m :: rest =>
    match combine rest with
    | [] => [m]
    | n :: others =>
      if m.exponents = n.exponents then ⟨m.exponents, m.coefficient + n.coefficient⟩ :: others
      else m :: n :: others

/-- The polynomial of some terms in any order. -/
def ofTerms (ms : List Monomial) : Polynomial :=
  (combine (ms.mergeSort fun m n => m.exponents.order n.exponents != .gt)).filter
    fun m => m.coefficient ≠ 0

/-- The sum of two polynomials. -/
def add (p q : Polynomial) : Polynomial := ofTerms (p ++ q)

/-- The product of two polynomials. -/
def mul (p q : Polynomial) : Polynomial :=
  ofTerms (p.flatMap fun m => q.map fun n =>
    ⟨m.exponents.add n.exponents, m.coefficient * n.coefficient⟩)

/-- A constant polynomial. -/
def const (c : Rat) : Polynomial := ofTerms [⟨[], c⟩]

/-- The symbol with a number. -/
def symbol (index : Nat) : Polynomial := [⟨List.replicate index 0 ++ [1], 1⟩]

/-- A polynomial times a number. -/
def scale (c : Rat) (p : Polynomial) : Polynomial :=
  ofTerms (p.map fun m => ⟨m.exponents, c * m.coefficient⟩)

/-- A power of a single term. -/
def monomialPow (m : Monomial) (n : Nat) : Monomial :=
  ⟨if n = 0 then [] else m.exponents.map (n * ·), m.coefficient ^ n⟩

/-- The product of two terms. -/
def monomialMul (m n : Monomial) : Monomial :=
  ⟨m.exponents.add n.exponents, m.coefficient * n.coefficient⟩

/-- The binomial coefficients from `choose n k` on, given that one. -/
def binomialsFrom (n k c : Nat) : Nat → List Nat
  | 0 => [c]
  | left + 1 => c :: binomialsFrom n (k + 1) (c * (n - k) / (k + 1)) left

/-- The coefficients of a power of a sum of two terms. -/
def binomials (n : Nat) : List Nat := binomialsFrom n 0 1 n

/-- The products of some terms to which a power of their sum is multiplied out. -/
def multinomial : List Monomial → Nat → List Monomial
  | [], 0 => [⟨[], 1⟩]
  | [], _ + 1 => []
  | [m], n => [monomialPow m n]
  | m :: rest, n =>
    (binomials n).zipIdx.flatMap fun (c, k) =>
      let power := monomialPow m k
      (multinomial rest (n - k)).map fun t =>
        monomialMul ⟨power.exponents, c * power.coefficient⟩ t

/-- A power by repeated squaring. -/
def squaringPow (p : Polynomial) (n : Nat) : Polynomial :=
  if _h : n = 0 then const 1
  else
    let half := squaringPow p (n / 2)
    let square := mul half half
    if n % 2 = 0 then square else mul p square
termination_by n

/-- The greatest number of terms for which a power is multiplied out term by term. -/
def multinomialLimit : Nat := 2 ^ (15 : Nat)

/-- Whether a power is a sum of few products of terms. -/
def hasFewTerms (p : Polynomial) (n : Nat) : Bool :=
  p.length ≤ 2 || (p.length ≤ 8 && n ≤ multinomialLimit &&
    (binomialsFrom (n + p.length - 1) 0 1 (p.length - 1)).getLastD 0 ≤ multinomialLimit)

/-- A power, multiplied out at once if that gives few terms, and by repeated squaring otherwise. -/
def pow (p : Polynomial) (n : Nat) : Polynomial :=
  if hasFewTerms p n then ofTerms (multinomial p n) else squaringPow p n

/-- Whether a polynomial is zero. -/
def isZero (p : Polynomial) : Bool := p.isEmpty

/-! ## Primitive parts -/

/-- The exponents of the greatest product of symbols that divides a polynomial. -/
def content : Polynomial → Exponents
  | [] => []
  | m :: rest => rest.foldl (fun e n => e.common n.exponents) m.exponents

/-- The coefficient of the first term. -/
def leading : Polynomial → Rat
  | [] => 0
  | m :: _ => m.coefficient

/-- A polynomial divided by its content and its leading coefficient. -/
def primitive (p : Polynomial) : Polynomial :=
  ofTerms (p.map fun m => ⟨m.exponents.sub p.content, m.coefficient / p.leading⟩)

/-- An order of polynomials: term by term, by exponents and then by coefficients. -/
def order : Polynomial → Polynomial → Ordering
  | [], [] => .eq
  | [], _ :: _ => .lt
  | _ :: _, [] => .gt
  | m :: p, n :: q =>
    (m.exponents.order n.exponents).then <|
      (if m.coefficient < n.coefficient then .lt
        else if n.coefficient < m.coefficient then .gt
        else .eq : Ordering).then (order p q)

end Polynomial

end Isolate.Symbolic
