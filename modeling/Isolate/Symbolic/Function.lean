import Isolate.Symbolic.Angle
import Isolate.Symbolic.Sign

/-!
# Functions of forms

A function of a form is worked out where a rule gives its value: a minus sign leaves the argument of
a sine and is dropped from that of a cosine, quarter turns leave an angle, a function and its
inverse remove each other, the exponential of a sum of logarithms is a product. A function of a
rounded constant is a rounded constant. Everything else is left as it is.

* `Form.exponential`, `Form.logarithm` - the exponential and the logarithm;
* `Form.circular`, `Form.inverseCircular` - the circular functions and their inverses;
* `Form.raisedTo`, `Form.function` - powers and functions in general.
-/

namespace Isolate.Symbolic

namespace Form

/-! ## Numbers -/

/-- A function of a rounded constant, worked out if its size is that of a double. Inverse sines and
cosines beyond one are not real. -/
def atRounded (f : Builtin) (q : Rat) : Form :=
  let x := nearestFloat q
  let y := Arithmetic.floatFunction f x
  let height := (x.abs + (x * x - 1.0).sqrt).log
  if Binary64.isFinite y ∧ y != 0.0 then scalar (.ofReal y)
  else match f with
    | .asin => complexNumber (if x < 0.0 then Float.asin (-1.0) else Float.asin 1.0)
        (if x < 0.0 then height else -height)
    | .acos => complexNumber (if x < 0.0 then Float.acos (-1.0) else 0.0)
        (if x < 0.0 then -height else height)
    | f => apply f (scalar (.rounded q))

/-! ## Exponentials and logarithms -/

/-- The argument of which a form is a function. -/
def argumentOf? (f : Builtin) : Form → Option Form
  | apply g a => if f = g then some a else none
  | _ => none

/-- The base and the exponent of a power alone. -/
def power? : Form → Option (Powered Form)
  | product c [f] => if c = .one then some f else none
  | _ => none

/-- The exponent of a natural exponential. -/
def exponent? (a : Form) : Option Form :=
  if a = euler then some one
  else match power? a with
    | some f => if f.base = euler then some f.exponent else none
    | none => none

/-- The argument of the only logarithm among some factors, with the product of the others, which are
real numbers. -/
def soleLogarithm? (c : Scalar) (fs : List (Powered Form)) : Option (Form × Form) :=
  let forms := fs.map fun f => bare [f]
  let (logarithms, others) := forms.partition fun a => (argumentOf? .ln a).isSome
  match logarithms.filterMap (argumentOf? .ln), c.rational? with
  | [b], some _ =>
    if others.all fun a => a.real?.isSome then some (b, ofProduct (scalar c :: others)) else none
  | _, _ => none

/-- The natural exponential of a number of quarter turns on the imaginary axis, as far as a form is
one. -/
def unitPower? (c : Scalar) (fs : List (Powered Form)) : Option Form :=
  let isTurn := fs.length = 2 ∧ (fs.any fun f => bare [f] = pi) ∧
    fs.any fun f => bare [f] = imaginaryUnit
  match (c.mul (.ofInt 2)).integer? with
  | some quarters => if isTurn then some (power imaginaryUnit (scalar (.ofInt quarters))) else none
  | none => none

/-- A natural exponential of a form that is no sum. That of a real multiple of a logarithm is a
power. -/
def simpleExponential (a : Form) : Form :=
  match a with
  | scalar .undefined => scalar .undefined
  | scalar .pole => scalar .undefined
  | scalar (.infinite true) => scalar (.ofInt 0)
  | scalar (.infinite false) => scalar (.infinite false)
  | scalar (.rounded q) =>
    let y := (nearestFloat q).exp
    if Binary64.isFinite y ∧ y != 0.0 then scalar (.ofReal y) else power euler a
  | apply .ln b => b
  | product c fs =>
    match soleLogarithm? c fs, unitPower? c fs with
    | some (b, e), _ => power b e
    | none, some u => u
    | none, none => power euler a
  | a => power euler a

/-- A natural exponential. The terms of a sum whose exponentials are something else become
factors. -/
def exponential (a : Form) : Form :=
  match a with
  | sum terms =>
    let parts := terms.map fun t => (ofTerm t, simpleExponential (ofTerm t))
    let kept := parts.filter fun p => (exponent? p.2).isSome
    let worked := (parts.filter fun p => (exponent? p.2).isNone).map (·.2)
    if worked.isEmpty then power euler a
    else ofProduct (worked ++ [power euler (ofSum (kept.map (·.1)))])
  | a => simpleExponential a

/-- A natural logarithm of a form that is no negative number; that of a natural exponential with a
real exponent is the exponent, and that of the inverse of a whole number is negated. -/
def simpleLogarithm (a : Form) : Form :=
  match a with
  | scalar (.exact q) =>
    if q = 0 then scalar .pole
    else if q = 1 then scalar (.ofInt 0)
    else if q.num = 1 then neg (apply .ln (scalar (.exact q.den)))
    else apply .ln a
  | scalar (.rounded q) => atRounded .ln q
  | scalar c => scalar (if c.rational?.isNone ∧ c.isNegative then c.abs else c)
  | a =>
    match exponent? a with
    | some e => if e.real?.isSome then e else apply .ln a
    | none => apply .ln a

/-- A natural logarithm. That of a negative number is not real. -/
def logarithm (a : Form) : Form :=
  if a.isNegativeNumber ∧ a ≠ scalar (.infinite true) then
    ofSum [ofProduct [pi, imaginaryUnit], simpleLogarithm (neg a)]
  else simpleLogarithm a

/-! ## Circular functions -/

/-- The number of quarter turns, other than none, in a sum, and the sum without them. -/
def quarterTurns? : Form → Option (Int × Form)
  | sum terms =>
    let total := terms.foldl (fun q t =>
      match t.weight with
      | .exact p => if t.item = pi then q + p else q
      | _ => q) (0 : Rat)
    let rest := terms.filter fun t => !(t.item = pi ∧ t.weight.isExact)
    let part := remainderBy total (1 / 2)
    let quarters := 2 * (total - part)
    if quarters = 0 then none
    else some (quarters.floor, ofTerms (rest ++ [⟨.exact part, pi⟩]))
  | _ => none

/-- The square root of one minus a square. -/
def cathetus (a : Form) : Form :=
  squareRoot (ofSum [one, neg (power a (ratio 2))])

/-- The inverse of the square root of one plus a square. -/
def inverseHypotenuse (a : Form) : Form :=
  power (ofSum [one, power a (ratio 2)]) (ratio (-1 / 2))

/-- A circular function of an inverse circular function, where it is known without a triangle or by
one. -/
def ofInverse? (f : Builtin) : Form → Option Form
  | apply .asin a =>
    match f with
    | .sin => some a
    | .cos => some (cathetus a)
    | .tan => some (ofProduct [a, power (ofSum [one, neg (power a (ratio 2))]) (ratio (-1 / 2))])
    | .cot => some (ofProduct [cathetus a, inverse a])
    | _ => none
  | apply .acos a =>
    match f with
    | .sin => some (cathetus a)
    | .cos => some a
    | .tan => some (ofProduct [cathetus a, inverse a])
    | .cot => some (ofProduct [a, power (ofSum [one, neg (power a (ratio 2))]) (ratio (-1 / 2))])
    | _ => none
  | apply .atan a =>
    match f with
    | .sin => some (ofProduct [a, inverseHypotenuse a])
    | .cos => some (inverseHypotenuse a)
    | .tan => some a
    | .cot => some (inverse a)
    | _ => none
  | _ => none

/-- The circular function that another becomes after some quarter turns, and whether its sign
changes. -/
def afterQuarters (f : Builtin) (quarters : Int) : Builtin × Bool :=
  match f, quarters % 4 with
  | .sin, 1 => (.cos, false)
  | .sin, 2 => (.sin, true)
  | .sin, 3 => (.cos, true)
  | .cos, 1 => (.sin, true)
  | .cos, 2 => (.cos, true)
  | .cos, 3 => (.sin, false)
  | .tan, 1 => (.cot, true)
  | .tan, 3 => (.cot, true)
  | .cot, 1 => (.tan, true)
  | .cot, 3 => (.tan, true)
  | f, _ => (f, false)

/-- A circular function of a form that has a value, by a number of reduction steps. -/
def circularWithin : Nat → Builtin → Form → Form
  | 0, f, a => apply f a
  | steps + 1, f, a =>
    if a.isNegated then
      let value := circularWithin steps f (neg a)
      if f = .cos then value else neg value
    else match a, turn? a with
      | scalar (.rounded q), _ => atRounded f q
      | scalar (.exact q), _ => if q = 0 then circularAt f 0 else apply f a
      | _, some (.exact r, []) => circularAt f r
      | a, some (c, others) =>
        let d : Scalar := match c.recast, others with
          | .rounded q, [] => .rounded (remainderBy q 2)
          | d, _ => d
        if d = c then apply f a
        else circularWithin steps f (ofProduct (scalar d :: pi :: others.map fun g => bare [g]))
      | a, none =>
        match quarterTurns? a with
        | some (quarters, rest) =>
          let (g, changes) := afterQuarters f quarters
          let value := circularWithin steps g rest
          if changes then neg value else value
        | none => (ofInverse? f a).getD (apply f a)

/-- A circular function. It has no value at a quotient by zero. -/
def circular (f : Builtin) (a : Form) : Form :=
  if a = scalar .pole then scalar .undefined else circularWithin 16 f a

/-! ## Inverse circular functions -/

/-- The inverse sines that are known, in half turns. -/
def knownSines : List (Form × Rat) :=
  let root2 := squareRoot (ratio 2)
  let root3 := squareRoot (ratio 3)
  let root5 := squareRoot (ratio 5)
  let root6 := squareRoot (ratio 6)
  let quarterOf (a : Form) := scale (.exact (1 / 4)) a
  let halfOf (a : Form) := scale (.exact (1 / 2)) a
  let short := ofSum [ratio 5, neg root5]
  let long := ofSum [ratio 5, root5]
  let eighth := power (ratio 8) (ratio (-1 / 2))
  [(ratio 0, 0), (one, 1 / 2), (halfOf root3, 1 / 3), (halfOf root2, 1 / 4),
    (squareRoot (scale (.exact (1 / 8)) short), 1 / 5),
    (quarterOf (ofProduct [root2, squareRoot short]), 1 / 5),
    (squareRoot (scale (.exact (1 / 8)) long), 2 / 5),
    (quarterOf (ofProduct [root2, squareRoot long]), 2 / 5),
    (ratio (1 / 2), 1 / 6),
    (halfOf (squareRoot (ofSum [ratio 2, neg root2])), 1 / 8),
    (squareRoot (ofSum [ratio (1 / 2), neg (quarterOf root2)]), 1 / 8),
    (halfOf (squareRoot (ofSum [ratio 2, root2])), 3 / 8),
    (squareRoot (ofSum [ratio (1 / 2), quarterOf root2]), 3 / 8),
    (quarterOf (ofSum [root5, ratio (-1)]), 1 / 10),
    (quarterOf (ofSum [one, neg root5]), -1 / 10),
    (quarterOf (ofSum [root5, one]), 3 / 10),
    (quarterOf (ofSum [root6, neg root2]), 1 / 12),
    (quarterOf (ofSum [root2, neg root6]), -1 / 12),
    (ofProduct [ofSum [root3, ratio (-1)], eighth], 1 / 12),
    (ofProduct [ofSum [one, neg root3], eighth], -1 / 12),
    (quarterOf (ofSum [root6, root2]), 5 / 12),
    (ofProduct [ofSum [one, root3], eighth], 5 / 12)]

/-- The inverse tangents that are known, in half turns. -/
def knownTangents : List (Form × Rat) :=
  let root2 := squareRoot (ratio 2)
  let root3 := squareRoot (ratio 3)
  [(ratio 0, 0), (one, 1 / 4), (scale (.exact (1 / 3)) root3, 1 / 6), (root3, 1 / 3),
    (ofSum [root2, ratio (-1)], 1 / 8), (ofSum [one, neg root2], -1 / 8),
    (ofSum [one, root2], 3 / 8),
    (tangentOfTenths 2, 1 / 5), (tangentOfTenths 4, 2 / 5),
    (tangentOfTenths 1, 1 / 10), (tangentOfTenths 3, 3 / 10),
    (ofSum [ratio 2, neg root3], 1 / 12), (ofSum [ratio (-2), root3], -1 / 12),
    (ofSum [ratio 2, root3], 5 / 12)]

/-- The inverse function that is known at a form without symbols, in half turns. -/
def known? (table : List (Form × Rat)) (a : Form) : Option Rat :=
  match a with
  | scalar c => if c.isExact then table.lookup a else none
  | a => if a.occurrences.isEmpty then table.lookup a else none

/-- A quarter turn less some form. -/
def complement (a : Form) : Form := ofSum [halfTurns (1 / 2), neg a]

/-- The angle of at most a quarter turn with the same sine as a real number. -/
def angleOfSine (a : Form) : Form :=
  let b := remainder a 2
  let b := if b.exceeds 1 then ofSum [pi, neg b] else b
  let b := if b.exceeds (1 / 2) then ofSum [pi, neg b] else b
  if (neg b).exceeds (1 / 2) then neg (ofSum [pi, b]) else b

/-- The angle of at most half a turn with the same cosine as a real number. -/
def angleOfCosine (a : Form) : Form :=
  let b := remainder a 2
  if b.exceeds 1 then ofSum [halfTurns 2, neg b] else b

/-- The angle of at most a quarter turn with the same tangent as a real number. -/
def angleOfTangent (a : Form) : Form :=
  let b := remainder a 1
  if b.exceeds (1 / 2) then ofSum [b, neg pi] else b

/-- The real number of which a form is a function. -/
def angle? (f : Builtin) (a : Form) : Option Form :=
  (argumentOf? f a).filter fun b => b.real?.isSome

/-- An inverse sine of a form that is not negated. -/
def inverseSine (a : Form) : Form :=
  match a, known? knownSines a, angle? .sin a, angle? .cos a with
  | scalar (.rounded q), _, _, _ => atRounded .asin q
  | scalar (.infinite negative), _, _, _ =>
    ofProduct [scalar (.infinite !negative), imaginaryUnit]
  | scalar .pole, _, _, _ => scalar .pole
  | _, some r, _, _ => halfTurns r
  | _, _, some b, _ => angleOfSine b
  | _, _, _, some b => complement (angleOfCosine b)
  | a, _, _, _ => apply .asin a

/-- An inverse cosine. -/
def inverseCosine (a : Form) : Form :=
  match a, known? knownSines a, known? knownSines (neg a), angle? .cos a, angle? .sin a with
  | scalar (.rounded q), _, _, _, _ => atRounded .acos q
  | scalar (.infinite negative), _, _, _, _ =>
    ofProduct [scalar (.infinite negative), imaginaryUnit]
  | scalar .pole, _, _, _, _ => scalar .pole
  | _, some r, _, _, _ => halfTurns (1 / 2 - r)
  | _, _, some r, _, _ => halfTurns (1 / 2 + r)
  | _, _, _, some b, _ => angleOfCosine b
  | _, _, _, _, some b => complement (angleOfSine b)
  | a, _, _, _, _ => apply .acos a

/-- An inverse tangent of a form that is not negated. -/
def inverseTangent (a : Form) : Form :=
  match a, known? knownTangents a, angle? .tan a, angle? .cot a with
  | scalar (.rounded q), _, _, _ => atRounded .atan q
  | scalar (.infinite _), _, _, _ => halfTurns (1 / 2)
  | _, some r, _, _ => halfTurns r
  | _, _, some b, _ => angleOfTangent b
  | _, _, _, some b =>
    let c := complement (angleOfTangent b)
    if c.exceeds (1 / 2) then ofSum [c, neg pi] else c
  | a, _, _, _ => apply .atan a

/-- An inverse circular function. The sign leaves inverse sines and tangents. -/
def inverseCircular (f : Builtin) (a : Form) : Form :=
  match f with
  | .asin => if a.isNegated then neg (inverseSine (neg a)) else inverseSine a
  | .atan => if a.isNegated then neg (inverseTangent (neg a)) else inverseTangent a
  | _ => inverseCosine a

/-! ## Powers and functions -/

/-- The exponent of a natural exponential that a power is because its exponent is divided by the
logarithm of its base. -/
def dividedByLogarithm? (b e : Form) : Option Form :=
  match e with
  | product c fs =>
    let isDivisor (f : Powered Form) := f.exponent.split.1.isNegative
    match fs.filter isDivisor with
    | [f] =>
      if f.base = apply .ln b ∧ f.exponent = ratio (-1) then
        some (ofProduct (scalar c :: (fs.filter (!isDivisor ·)).map fun g => bare [g]))
      else none
    | _ => none
  | _ => none

/-- A power. One of a natural exponential with a number for an exponent is an exponential too. -/
def raisedTo (b e : Form) : Form :=
  match exponent? b, dividedByLogarithm? b e with
  | some (scalar q), _ => exponential (scale q e)
  | _, some d => exponential d
  | _, none => power b e

/-- A function applied to a form. -/
def function (f : Builtin) (a : Form) : Form :=
  if a = scalar .undefined then a
  else match f with
    | .sqrt => raisedTo a (ratio (1 / 2))
    | .exp => exponential a
    | .ln => logarithm a
    | .sin => circular .sin a
    | .cos => circular .cos a
    | .tan => circular .tan a
    | .asin => inverseCircular .asin a
    | .acos => inverseCircular .acos a
    | .atan => inverseCircular .atan a
    | f => apply f a

end Form

end Isolate.Symbolic
