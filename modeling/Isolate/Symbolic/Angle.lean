import Isolate.Symbolic.Collect

/-!
# Angles

An angle is measured in half turns. The cosine of a rational number of half turns is written with
square roots for the denominators 1 to 6, 8, 10, 12 and some of their common multiples. Other angles
are reduced to those between nothing and a quarter turn.

* `Form.halfTurns`, `Form.turn?` - forms that stand for a number of half turns;
* `Form.cosineAt?`, `Form.sineAt?`, `Form.tangentAt?` - the values that are written with roots;
* `Form.circularAt` - a circular function at any rational number of half turns;
* `Form.remainder` - what is left of a number after taking out turns.
-/

namespace Isolate.Symbolic

/-- The remainder of a rational number that is at least zero and less than a positive divisor. -/
def remainderBy (q divisor : Rat) : Rat := q - divisor * (q / divisor).floor

/-- A rounded constant that is whole, or differs from a whole number by an inverse power of two, as
an exact one. -/
def Scalar.recast : Scalar → Scalar
  | rounded q =>
    let fraction := remainderBy (if q.num < 0 then -q else q) 1
    if fraction.num = 0 ∨ fraction.num = 1 then exact q else rounded q
  | c => c

namespace Form

/-- A rational number as a form. -/
def ratio (q : Rat) : Form := scalar (.exact q)

/-- A square root. -/
def squareRoot (a : Form) : Form := power a (ratio (1 / 2))

/-- An inverse. -/
def inverse (a : Form) : Form := power a (ratio (-1))

/-- A rational number of half turns. -/
def halfTurns (r : Rat) : Form := scale (.exact r) pi

/-- A form as a coefficient and other factors of half a turn. -/
def turn? : Form → Option (Scalar × List (Powered Form))
  | named .pi => some (.one, [])
  | product c fs =>
    if fs.any fun f => f.base = pi ∧ f.exponent = one then
      some (c, fs.filter fun f => !(f.base = pi ∧ f.exponent = one))
    else none
  | _ => none

/-! ## Exact values -/

/-- Two denominators of angles whose difference is an angle with the given denominator. -/
def denominators? : Nat → Option (Nat × Nat)
  | 12 => some (3, 4)
  | 15 => some (6, 10)
  | 20 => some (4, 5)
  | 24 => some (6, 8)
  | 30 => some (5, 6)
  | 40 => some (8, 10)
  | 60 => some (20, 30)
  | 120 => some (40, 60)
  | _ => none

/-- The cosine of a number of half turns, as far as it is written with roots. Every step halves a
denominator, splits it, or turns the angle. -/
def cosineWithin : Nat → Rat → Option Form
  | 0, _ => none
  | steps + 1, r =>
    let x := remainderBy r 2
    if 1 < x then (cosineWithin steps (x - 1)).map neg
    else if 1 < 2 * x then (cosineWithin steps (1 - x)).map neg
    else match denominators? x.den with
      | some (a, b) => do
        let p := x.num / (a : Rat)
        let q := x.num / (b : Rat)
        let cosP ← cosineWithin steps p
        let cosQ ← cosineWithin steps q
        let sinP ← cosineWithin steps (1 / 2 - p)
        let sinQ ← cosineWithin steps (1 / 2 - q)
        some (ofSum [ofProduct [cosP, cosQ], ofProduct [sinP, sinQ]])
      | none =>
        let root := squareRoot (ratio 5)
        match x.den with
        | 1 => some one
        | 2 => some (ratio 0)
        | 3 => some (ratio (1 / 2))
        | 5 =>
          let sign : Rat := if x.num = 1 then 1 else -1
          some (ofSum [ratio (sign / 4), scale (.exact (1 / 4)) root])
        | 4 | 6 | 8 | 10 => do
          let double ← cosineWithin steps (2 * x)
          some (squareRoot (scale (.exact (1 / 2)) (ofSum [one, double])))
        | _ => none

/-- The cosine of a number of half turns, if it is written with roots. -/
def cosineAt? (r : Rat) : Option Form := cosineWithin 32 r

/-- The sine of a number of half turns, if it is written with roots. -/
def sineAt? (r : Rat) : Option Form := cosineAt? (r - 1 / 2)

/-- The tangent of some tenths of half a turn. -/
def tangentOfTenths (n : Int) : Form :=
  let root := squareRoot (ratio 5)
  match n with
  | 1 => squareRoot (ofSum [one, scale (.exact (-2 / 5)) root])
  | 2 => squareRoot (ofSum [ratio 5, scale (.exact (-2)) root])
  | 3 => squareRoot (ofSum [one, scale (.exact (2 / 5)) root])
  | _ => squareRoot (ofSum [ratio 5, scale (.exact 2) root])

/-- The tangent of a number of half turns, if it is written with roots. -/
def tangentWithin : Nat → Rat → Option Form
  | 0, _ => none
  | steps + 1, r =>
    let p := r.num % r.den
    if r.den = 5 ∨ r.den = 10 then
      let n := 10 * p / r.den
      some (if 5 < n then neg (tangentOfTenths (10 - n)) else tangentOfTenths n)
    else
      let doubled := do
        let c ← cosineAt? (2 * r)
        let s ← cosineAt? (2 * r - 1 / 2)
        some (if s = ratio 0 then scalar .pole
          else ofSum [inverse s, neg (ofProduct [c, inverse s])])
      let difference := do
        let (a, b) ← denominators? r.den
        let s ← tangentWithin steps (p / (a : Rat))
        let t ← tangentWithin steps (p / (b : Rat))
        some (ofProduct [ofSum [s, neg t], inverse (ofSum [one, ofProduct [s, t]])])
      let quotient := do
        let x := remainderBy (r + 1 / 2) 1 - 1 / 2
        let c ← cosineAt? x
        let s ← cosineAt? (x - 1 / 2)
        some (if c = ratio 0 then scalar .pole else ofProduct [s, inverse c])
      if r.den = 1 then some (ratio 0)
      else if r.den % 2 = 0 then doubled <|> quotient
      else difference <|> quotient

/-- The tangent of a number of half turns, if it is written with roots. -/
def tangentAt? (r : Rat) : Option Form := tangentWithin 4 r

/-! ## Circular functions -/

/-- A cosine at an angle between nothing and a quarter turn that has the same cosine but for its
sign. -/
def reducedCosine (r : Rat) : Form :=
  let x := remainderBy r 2
  let (sign, y) : Bool × Rat := if 1 < x then (true, x - 1) else (false, x)
  let (sign, y) : Bool × Rat := if 1 < 2 * y then (!sign, 1 - y) else (sign, y)
  let value := apply .cos (halfTurns y)
  if sign then neg value else value

/-- A sine at an angle between nothing and a quarter turn that has the same sine but for its
sign. -/
def reducedSine (r : Rat) : Form :=
  let x := remainderBy r 2
  let (sign, y) : Bool × Rat := if 1 < x then (true, x - 1) else (false, x)
  let value := apply .sin (halfTurns (if 1 < 2 * y then 1 - y else y))
  if sign then neg value else value

/-- A tangent at an angle of at most a quarter turn that has the same tangent but for its sign. -/
def reducedTangent (r : Rat) : Form :=
  let x := remainderBy (r + 1 / 2) 1 - 1 / 2
  if x < 0 then neg (apply .tan (halfTurns (-x))) else apply .tan (halfTurns x)

/-- A circular function at a rational number of half turns. -/
def circularAt (f : Builtin) (r : Rat) : Form :=
  match f with
  | .cos => (cosineAt? r).getD (reducedCosine r)
  | .sin => (sineAt? r).getD (reducedSine r)
  | .tan => (tangentAt? r).getD (reducedTangent r)
  | f => apply f (halfTurns r)

/-! ## Remainders -/

/-- A double without its fraction. -/
def wholePart (x : Float) : Int :=
  (Binary64.integer? (if x < 0.0 then x.ceil else x.floor)).getD 0

/-- What is left of a real number after taking out a number of half turns as often as possible. -/
def remainder (a : Form) (r : Rat) : Form :=
  let times := wholePart (a.estimate / (halfTurns r).estimate)
  let rest := ofSum [a, halfTurns (-times * r)]
  if rest.estimate < 0.0 then ofSum [rest, halfTurns r] else rest

/-- Whether a real number is greater than a number of half turns. -/
def exceeds (a : Form) (r : Rat) : Bool := (halfTurns r).estimate < a.estimate

end Form

end Isolate.Symbolic
