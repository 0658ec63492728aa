import Isolate.Symbolic.Estimate
import Isolate.Symbolic.Radical

/-!
# Collecting sums, products and powers

The operations of this file build a form from forms that are collected, so that it is collected too.
Terms with the same item are added up and factors with the same base are put together; constants are
worked out; a constant factor of a sum goes into its terms; a whole power of a product goes to its
factors. Nothing is multiplied out, and no common factor is sought, except that a power of a sum
with a rounded weight is divided by the power of the greatest weight.

* `Form.scale` - a constant times a form;
* `Form.ofSum`, `Form.ofProduct` - sums and products of any number of forms;
* `Form.power` - powers.
-/

namespace Isolate.Symbolic

namespace Form

/-! ## Constant factors -/

/-- The product of some factors; one factor with the exponent one is its base. -/
def bare : List (Powered Form) → Form
  | [⟨b, e⟩] => if e = one then b else product .one [⟨b, e⟩]
  | factors => product .one factors

/-- The constant coefficient of a form, and what it multiplies. A quotient by zero has no sign and
no size, so it is no coefficient. -/
def split : Form → Scalar × Form
  | scalar c => (c, one)
  | product .pole factors => (.one, product .pole factors)
  | product c factors => (c, bare factors)
  | a => (.one, a)

/-- A product of a constant and some factors. -/
def withCoefficient (c : Scalar) (factors : List (Powered Form)) : Form :=
  if c = .undefined then scalar .undefined
  else if c.isZero then scalar c
  else if c = .one then bare factors
  else product c factors

/-- The factors of a form in which symbols occur. -/
def symbolFactors : Form → List (Powered Form)
  | product _ fs => fs.filter fun f => !(product .one [f]).occurrences.isEmpty
  | a => if a.occurrences.isEmpty then [] else [⟨a, one⟩]

/-- Terms in the order of their opposites. Terms that differ in numbers only stand side by side, the
least first. -/
def turned (terms : List (Weighted Form)) : List (Weighted Form) :=
  (terms.splitBy fun t u => sameFactors t.item.symbolFactors u.item.symbolFactors).flatMap
    List.reverse

/-- A constant times a form. A finite constant goes into the terms of a sum. -/
def scale (c : Scalar) (a : Form) : Form :=
  if c = .one then a
  else
    match a with
    | scalar d => scalar (c.mul d)
    | product d factors => withCoefficient (c.mul d) factors
    | sum terms =>
      if c.isZero then scalar c
      else if c.rational?.isSome then
        let scaled := terms.map fun t => Weighted.mk (c.mul t.weight) t.item
        sum (if c.isNegative then turned scaled else scaled)
      else withCoefficient c [⟨sum terms, one⟩]
    | a => withCoefficient c [⟨a, one⟩]

/-- The opposite of a form. -/
def neg (a : Form) : Form := scale (.ofInt (-1)) a

end Form

/-! ## Sums -/

namespace Weighted

/-- A term joined to the term with the same item. -/
def join (t : Weighted Form) : List (Weighted Form) → List (Weighted Form)
  | [] => [t]
  | u :: rest =>
    if u.item = t.item then ⟨u.weight.add t.weight, u.item⟩ :: rest else u :: join t rest

/-- The term that a form is by itself. -/
def ofForm (a : Form) : Weighted Form := let (c, item) := a.split; ⟨c, item⟩

/-- Where a factor of a term stands among the others of its kind: the key of a root of it, and which
power of that root it is. A constant factor has no place. -/
def place? (f : Powered Form) : Option (Key × Int) :=
  if (Form.product .one [f]).occurrences.isEmpty then none
  else
    let (c, item) := f.exponent.split
    match c with
    | .exact q =>
      let root := Form.scale (.exact (1 / (q.den : Rat))) item
      some (Form.factorKey ⟨f.base, root⟩, q.num)
    | _ => some (Form.factorKey f, 1)

/-- The places of the factors of a term. -/
def places (t : Weighted Form) : List (Key × Int) :=
  match t.item with
  | .product _ factors => factors.filterMap place?
  | .scalar _ => []
  | a => [(a.key, 1)]

/-- The exponent with which a place occurs. -/
def exponentAt (places : List (Key × Int)) (k : Key) : Int :=
  match places.find? fun p => p.1.order k = .eq with
  | some p => p.2
  | none => 0

/-- Some keys in order, each once. -/
def sortedKeys (keys : List Key) : List Key :=
  let sorted := keys.mergeSort fun a b => a.order b != .gt
  sorted.foldr (fun k ks =>
    match ks with
    | [] => [k]
    | l :: _ => if k.order l = .eq then ks else k :: ks) []

/-- The order of two lists of exponents: at the first difference the greater one comes first. -/
def orderExponents : List Int → List Int → Ordering
  | a :: as, b :: bs => (compare b a).then (orderExponents as bs)
  | _, _ => .eq

/-- A double near the product of the numbers in a term. -/
def numberPart (t : Weighted Form) : Float :=
  let numbers := match t.item with
    | .product _ fs => fs.filter fun f => (Form.product .one [f]).occurrences.isEmpty
    | a => if a.occurrences.isEmpty then [⟨a, .one⟩] else []
  t.weight.estimate * Form.factorsEstimate numbers

/-- The order of two numbers; what is not a number is not ordered. -/
def orderNumbers (x y : Float) : Ordering := if x < y then .lt else if y < x then .gt else .eq

/-- Terms from the highest power of the first symbol to the lowest. Terms that differ in numbers
only are ordered by them. -/
def arrange (terms : List (Weighted Form)) : List (Weighted Form) :=
  let placed := terms.map fun t => (t, places t)
  let keys := sortedKeys (placed.flatMap fun p => p.2.map (·.1))
  let ranked := placed.map fun p => (p.1, keys.map (exponentAt p.2))
  let sorted := ranked.mergeSort fun a b =>
    ((orderExponents a.2 b.2).then ((orderNumbers (numberPart a.1) (numberPart b.1)).then
      ((a.1.item.key.order b.1.item.key).then (a.1.weight.order b.1.weight)))) != .gt
  sorted.map (·.1)

end Weighted

namespace Form

/-- The terms of a form. -/
def terms : Form → List (Weighted Form)
  | sum ts => ts
  | a => [.ofForm a]

/-- A single term as a form. -/
def ofTerm (t : Weighted Form) : Form := scale t.weight t.item

/-- The sum of some terms, collected. -/
def ofTerms (ts : List (Weighted Form)) : Form :=
  let joined := ts.foldl (fun us t => t.join us) []
  if joined.any (·.weight == .undefined) then scalar .undefined
  else
    match joined.filter (!·.weight.isZero) with
    | [] => scalar (.ofInt 0)
    | [t] => ofTerm t
    | kept => sum (Weighted.arrange kept)

/-- Whether a form is a sum. -/
def isSum : Form → Bool
  | sum _ => true
  | _ => false

/-- The sum of some forms. The terms of sums come after the forms that are no sums. -/
def ofSum (forms : List Form) : Form :=
  match forms.filter (· ≠ scalar (.ofInt 0)) with
  | [a] => a
  | forms =>
    let (sums, others) := forms.partition isSum
    ofTerms ((others ++ sums).flatMap terms)

end Form

/-! ## Products -/

/-- A base with a constant multiple of an exponent. -/
structure Multiple where
  base : Form
  item : Form
  count : Scalar

namespace Multiple

/-- A multiple joined to the one with the same base and the same exponent. -/
def join (m : Multiple) : List Multiple → List Multiple
  | [] => [m]
  | n :: rest =>
    if n.base = m.base ∧ n.item = m.item then ⟨n.base, n.item, n.count.add m.count⟩ :: rest
    else n :: join m rest

/-- A factor with its exponent taken apart. -/
def ofFactor (f : Powered Form) : Multiple :=
  let (c, item) := f.exponent.split
  ⟨f.base, item, c⟩

/-- The factor that a multiple stands for. -/
def factor (m : Multiple) : Powered Form := ⟨m.base, Form.scale m.count m.item⟩

end Multiple

namespace Form

/-- Whether a form is a sum with an infinite constant, or a product with one. -/
def hasInfinity : Form → Bool
  | sum terms => terms.any fun t => t.item = one ∧ t.weight.rational?.isNone
  | product c _ => c.rational?.isNone
  | _ => false

/-- Factors with every base once for each kind of exponent. The quotient of two infinite bases has
no value. -/
def gather (factors : List (Powered Form)) : List (Powered Form) :=
  let joined := factors.foldl (fun ms f => (Multiple.ofFactor f).join ms) []
  if joined.any fun m => m.count.isZero && m.base.hasInfinity then [⟨scalar .undefined, one⟩]
  else (joined.filter (!·.count.isZero)).map Multiple.factor

/-- The greatest weight of some terms, without its sign. -/
def greatestWeight (terms : List (Weighted Form)) : Scalar :=
  terms.foldl (fun c t => if c.order t.weight.abs = .lt then t.weight.abs else c) (.ofInt 0)

/-- The greatest weight of a sum with a rounded weight, and the sum divided by it, where that is
something else. A power of such a sum is taken of the quotient. -/
def rescaled? (terms : List (Weighted Form)) (exponent : Scalar) : Option (Scalar × Form) :=
  if terms.any (fun t => !t.weight.isExact) && terms.all (·.weight.rational?.isSome) &&
      (exponent.abs.rational? != some 1) &&
      !(exponent.isExact && (termOccurrences terms).isEmpty) then
    let c := greatestWeight terms
    if c.rational? = some 1 then none
    else some (c, sum (terms.map fun t =>
      ⟨if t.weight = c then .one else if t.weight = c.neg then .ofInt (-1) else t.weight.div c,
        t.item⟩))
  else none

mutual

/-- A whole power of a form as a coefficient and factors. -/
def raise (a : Form) (n : Int) : Scalar × List (Powered Form) :=
  match a with
  | scalar c => (c.pow n, [])
  | sum terms =>
    match rescaled? terms (.ofInt n) with
    | some (c, rest) => (c.pow n, [⟨rest, scalar (.ofInt n)⟩])
    | none => (.one, [⟨sum terms, scalar (.ofInt n)⟩])
  | product c factors =>
    let (d, raised) := raiseAll factors n
    ((c.pow n).mul d, raised)
  | a => (.one, [⟨a, scalar (.ofInt n)⟩])

/-- A whole power of some factors. -/
def raiseAll (factors : List (Powered Form)) (n : Int) : Scalar × List (Powered Form) :=
  match factors with
  | [] => (.one, [])
  | ⟨b, e⟩ :: rest =>
    let exponent := scale (.ofInt n) e
    let (c, raised) := match exponent.integer? with
      | some m => raise b m
      | none => (.one, [⟨b, exponent⟩])
    let (d, others) := raiseAll rest n
    (c.mul d, raised ++ others)

end

/-- A power of rational numbers other than zero, as far as a factor is one. -/
def rationalPower? (f : Powered Form) : Option (Rat × Rat) :=
  match f.base, f.exponent with
  | scalar (.exact b), scalar (.exact e) => if b = 0 then none else some (b, e)
  | _, _ => none

/-- A power of zero whose exponent is not whole. A constant factor leaves the exponent; a negative
one leaves a power of a quotient by zero. -/
def zeroPower (e : Form) : Scalar × List (Powered Form) :=
  if e.isPositiveNumber then (.ofInt 0, [])
  else if e.isNegativeNumber then (.pole, [])
  else
    let (c, item) := e.split
    (.one, [⟨scalar (if c.isNegative then .pole else .ofInt 0), item⟩])

/-- A factor whose exponent has become whole, and a power of zero, worked out. -/
def settleOne (f : Powered Form) : Scalar × List (Powered Form) :=
  match f.exponent.integer? with
  | some n => raise f.base n
  | none =>
    if f.exponent = scalar .undefined then (.undefined, [])
    else if f.base = scalar (.ofInt 0) then zeroPower f.exponent
    else (.one, [f])

/-- Factors worked out: the roots of rational numbers together, the others one by one. -/
def settle (factors : List (Powered Form)) : Scalar × List (Powered Form) :=
  let (coefficient, roots) := Radical.ofPowers (factors.filterMap rationalPower?)
  let rest := (factors.filter fun f => (rationalPower? f).isNone).map settleOne
  (rest.foldl (fun c p => c.mul p.1) (.exact coefficient),
    roots.map (fun r => ⟨scalar (.ofInt r.base), scalar (.exact r.exponent)⟩)
      ++ rest.flatMap (·.2))

/-- The factors of a form. -/
def factors : Form → Scalar × List (Powered Form)
  | scalar c => (c, [])
  | product c fs => (c, fs)
  | a => (.one, [⟨a, one⟩])

/-- Whether a factor is a power of a positive rational number whose exponent is no number. -/
def growth? (f : Powered Form) : Option Rat :=
  match f.base, f.exponent with
  | _, scalar _ => none
  | scalar (.exact q), _ => if 0 < q then some q else none
  | _, _ => none

/-- A power of a positive rational number below one, written as a power of its inverse. -/
def upright (f : Powered Form) : Powered Form :=
  match growth? f with
  | some q => if q < 1 then ⟨scalar (.exact q⁻¹), neg f.exponent⟩ else f
  | none => f

/-- A factor joined to the power of a positive rational number with the same exponent, if it is one
too. -/
def joinGrowth (f : Powered Form) : List (Powered Form) → List (Powered Form)
  | [] => [f]
  | g :: rest =>
    match growth? f, growth? g with
    | some p, some q =>
      if f.exponent = g.exponent then ⟨scalar (.exact (q * p)), g.exponent⟩ :: rest
      else g :: joinGrowth f rest
    | _, _ => g :: joinGrowth f rest

/-- Factors where the powers of positive rational numbers with the same exponent are one power. -/
def mergeGrowths (fs : List (Powered Form)) : List (Powered Form) :=
  (fs.foldl (fun gs f => joinGrowth f gs) []).filter (·.base ≠ one)

/-- The product of a constant and some factors, collected. A finite constant times a sum goes into
the terms of the sum. -/
def ofFactors (c : Scalar) (fs : List (Powered Form)) : Form :=
  let (d, settled) := settle (gather (fs.map upright))
  let kept := mergeGrowths (gather settled)
  let coefficient := c.mul d
  match kept with
  | [] => scalar coefficient
  | [⟨b, e⟩] =>
    if e = one then scale coefficient b else withCoefficient coefficient [⟨b, e⟩]
  | kept =>
    withCoefficient coefficient
      (kept.mergeSort fun f g => (factorKey f).order (factorKey g) != .gt)

/-- Whether a form is a product. -/
def isProduct : Form → Bool
  | product _ _ => true
  | _ => false

/-- The product of some forms. The factors of products come after the forms that are no products. -/
def ofProduct (forms : List Form) : Form :=
  match forms.filter (· ≠ one) with
  | [a] => a
  | forms =>
    let (products, others) := forms.partition isProduct
    let parts := (others ++ products).map factors
    ofFactors (parts.foldl (fun c p => c.mul p.1) .one) (parts.flatMap (·.2))

/-! ## Powers -/

/-- A power that is left as it is. -/
def plainPower (b e : Form) : Form := product .one [⟨b, e⟩]

/-- The square root of minus one. -/
def imaginaryUnit : Form := plainPower (scalar (.ofInt (-1))) (scalar (.exact (1 / 2)))

/-- The number with a real and an imaginary part. -/
def complexNumber (re im : Float) : Form :=
  ofSum [scalar (.ofReal re), ofProduct [scalar (.ofReal im), imaginaryUnit]]

/-- The power of a negative number by its size and the half turns of its angle. -/
def polarNumber (size turns : Float) : Form :=
  let quarters := 2.0 * turns
  if quarters == quarters.floor then
    complexNumber 0.0 (if (turns - 0.5) / 2.0 == ((turns - 0.5) / 2.0).floor then size else -size)
  else
    let angle := turns * NamedNumber.pi.double
    complexNumber (size * angle.cos) (size * angle.sin)

/-- A power of constants whose exponent is not whole. A rounded operand makes the power rounded; the
power of a negative constant is not real. -/
def scalarPower (b e : Scalar) : Form :=
  match b, e with
  | .undefined, _ => scalar .undefined
  | .pole, e => scalar (if e.isNegative then .ofInt 0 else .pole)
  | .infinite false, e => scalar (if e.isNegative then .ofInt 0 else .infinite false)
  | .infinite true, e =>
    if e.isNegative then scalar (.ofInt 0) else plainPower (scalar (.infinite true)) (scalar e)
  | .exact b, .exact e =>
    if b = 0 then scalar (if e.num < 0 then .pole else .ofInt 0)
    else ofFactors .one [⟨scalar (.exact b), scalar (.exact e)⟩]
  | b, e =>
    match b.rational?, e.rational? with
    | some x, some y =>
      if x = 0 then scalar (if y.num < 0 then .pole else .ofInt 0)
      else if b = .one then one
      else if x.num < 0 then
        polarNumber ((-nearestFloat x).pow (nearestFloat y)) (nearestFloat y)
      else
        let power := (nearestFloat x).pow (nearestFloat y)
        match Binary64.rational? power with
        | some p => scalar (.ofRounded p)
        | none => plainPower (scalar b) (scalar e)
    | _, _ => plainPower (scalar b) (scalar e)

/-- Whether the powers of a factor multiply its exponent, whatever they are: its exponent is a
number, and it lies between minus one and one or its base is a positive number. -/
def isNarrow (f : Powered Form) : Bool :=
  match f.exponent.scalar?.bind Scalar.rational? with
  | some q => (-1 < q && q < 1) || f.base.isPositiveNumber
  | none => false

/-- A power of a form that is no product of several factors, with an exponent that is not whole. -/
def singlePower (b e : Form) : Form :=
  match b, e with
  | scalar c, scalar d => scalarPower c d
  | scalar c, e =>
    if c.isZero then
      match zeroPower e with
      | (d, []) => scalar d
      | (_, fs) => bare fs
    else plainPower b e
  | sum terms, scalar d =>
    match rescaled? terms d with
    | some (c, rest) => ofProduct [scalarPower c d, plainPower rest (scalar d)]
    | none => plainPower b e
  | product c [f], e =>
    if c = .one ∧ isNarrow f then
      match f.base, f.exponent, e with
      | scalar d, scalar q, scalar r => scalarPower d (q.mul r)
      | _, scalar q, _ => ofFactors .one [⟨f.base, scale q e⟩]
      | _, _, _ => plainPower b e
    else plainPower b e
  | b, e => plainPower b e

/-- The factors of a product whose roots are taken apart: positive numbers, negative numbers, and
all others. A single negative number counts among the others unless the coefficient is negative
too. -/
def sortedRoots (c : Scalar) (fs : List (Powered Form)) :
    List Form × List Form × List (Powered Form) :=
  let positive := fs.filter fun f => (product .one [f]).isPositiveNumber
  let negative := fs.filter fun f => (product .one [f]).isNegativeNumber
  let others := fs.filter fun f =>
    !(product .one [f]).isPositiveNumber && !(product .one [f]).isNegativeNumber
  let alone := negative.length = 1 ∧ !c.isNegative
  (positive.map fun f => bare [f], if alone then [] else negative.map fun f => bare [f],
    if alone then negative ++ others else others)

/-- A root of a product: the numbers among its factors leave the root, but for a sign. -/
def productRoot (c : Scalar) (fs : List (Powered Form)) (e : Scalar) : Form :=
  let (positive, negative, others) := sortedRoots c fs
  let outside := (if c.abs = .one ∨ c.rational?.isNone then [] else [scalarPower c.abs e])
    ++ (positive ++ negative.map neg).map fun a => singlePower a (scalar e)
  if outside.isEmpty then plainPower (product c fs) (scalar e)
  else
    let isOdd := (negative.length + if c.isNegative then 1 else 0) % 2 = 1
    let sign : Scalar :=
      if c.rational?.isNone then c else if isOdd then .ofInt (-1) else .one
    ofProduct (outside ++ [singlePower (withCoefficient sign others) (scalar e)])

/-- A power whose exponent is not whole. -/
def brokenPower (b e : Form) : Form :=
  match b, e with
  | scalar .undefined, _ => scalar .undefined
  | product c fs, scalar d =>
    if c = .one ∧ fs.length = 1 then singlePower (product c fs) (scalar d) else productRoot c fs d
  | b, e => singlePower b e

/-- A power with an infinite exponent. That of a number beyond one is infinite and that of a number
nearer to zero is zero, as long as the number is positive or its powers vanish; one and minus one
have no such power. -/
def boundlessPower (b : Form) (negative : Bool) : Form :=
  match negative, b, b.real? with
  | false, _, some x =>
    if 1.0 < x then scalar (.infinite false)
    else if -1.0 < x && x < 1.0 then scalar (.ofInt 0)
    else scalar (if b = scalar (.infinite true) then .pole else .undefined)
  | true, scalar (.infinite sign), _ => scalar (if sign then .undefined else .ofInt 0)
  | true, scalar c, some x =>
    if c.isZero then scalar .pole
    else if 1.0 < x || (x < -1.0 && c.integer?.isSome) then scalar (.ofInt 0)
    else scalar (if 0.0 < x && x < 1.0 then .infinite false else .undefined)
  | _, b, _ => singlePower b (scalar (.infinite negative))

/-- A power. Whole powers go to the factors of a product, and the powers of what is itself a narrow
power multiply its exponent. One has the power one. -/
def power (b e : Form) : Form :=
  match e.integer?, e with
  | some n, _ =>
    if n = 0 then one
    else
      let (c, fs) := raise b n
      ofFactors c fs
  | none, scalar .undefined => scalar .undefined
  | none, scalar .pole => scalar .undefined
  | none, scalar (.infinite negative) => boundlessPower b negative
  | none, e => if b = one then one else brokenPower b e

end Form

end Isolate.Symbolic
