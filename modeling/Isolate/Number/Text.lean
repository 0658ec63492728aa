import Isolate.Number.Decimal

/-!
# Texts of numbers

Two texts of a double:

* `exact` - the shortest decimal that reads back, positional or with an exponent by its size;
* `constant` - all digits of a whole number, and the exact text of any other number.

Positional notation, the point and the exponent are laid out from the digits of a `Decimal`; the
decisions that belong to the format are the fields of `Layout`.
-/

namespace Isolate.Number

/-- Where positional notation begins and ends, and how an exponent is written. -/
structure Layout where
  /-- The least power of ten of the leading digit that is written without an exponent. -/
  positionalFrom : Int
  /-- The first power of ten of the leading digit that is again written with an exponent. -/
  positionalBelow : Int
  /-- The least number of digits of an exponent. -/
  exponentWidth : Nat

/-- Positional from `0.0001` to below `10 ^ 16`; exponents have two digits at least. -/
def layout : Layout := ⟨-4, 16, 2⟩

/-- A minus sign for negative numbers. -/
def sign (negative : Bool) : String := if negative then "-" else ""

/-- Trailing zeros dropped. -/
def trimZeros (digits : List Char) : List Char :=
  (digits.reverse.dropWhile (· = '0')).reverse

/-- An exponent with its sign, padded with zeros. -/
def exponentText (width : Nat) (e : Int) : String :=
  let digits := Nat.toDigits 10 e.natAbs
  (if e < 0 then "e-" else "e+")
    ++ String.ofList (List.replicate (width - digits.length) '0' ++ digits)

/-- Digits with a point after the first, and an exponent. -/
def scientific (width : Nat) (digits : List Char) (e : Int) : String :=
  match digits with
  | [] => exponentText width e
  | [d] => String.ofList [d] ++ exponentText width e
  | d :: rest => String.ofList (d :: '.' :: rest) ++ exponentText width e

/-- Digits without an exponent, the leading one standing for `10 ^ e`; at least one digit on
either side of the point. -/
def positional (digits : List Char) (e : Int) : String :=
  if e < 0 then
    String.ofList ('0' :: '.' :: List.replicate ((-e).toNat - 1) '0' ++ digits)
  else
    let whole := e.toNat + 1
    let padded := digits ++ List.replicate (whole - digits.length) '0'
    let fraction := padded.drop whole
    String.ofList (padded.take whole ++ '.' :: if fraction = [] then ['0'] else fraction)

/-- The text of a positive decimal. -/
def Layout.text (l : Layout) (d : Decimal) : String :=
  let digits := Nat.toDigits 10 d.coefficient
  let e := d.exponent + Int.ofNat digits.length - 1
  if l.positionalFrom ≤ e ∧ e < l.positionalBelow then positional (trimZeros digits) e
  else scientific l.exponentWidth (trimZeros digits) e

/-- The shortest decimal that reads back as the double. -/
def exact (x : Float) : String :=
  match Binary64.classify x with
  | .nan => "nan"
  | .infinite negative => sign negative ++ "inf"
  | .finite negative 0 => sign negative ++ "0.0"
  | .finite negative magnitude => sign negative ++ layout.text (.shortest magnitude)

/-- A constant inside a formula: a whole number is written with all its digits and nothing else,
zero without a sign; any other number is written exactly. -/
def constant (x : Float) : String :=
  match Binary64.integer? x with
  | some n => Int.repr n
  | none => exact x

end Isolate.Number
