import Isolate.Text.Charset
import Isolate.Number.Decimal

/-!
# Reading numbers

`read?` reads a text as a double. Around the number there may be white space. The number is a
decimal numeral with an optional sign, point and exponent, or one of the words `inf`, `infinity`
and `nan` in any case. The decimal digits of every script count as digits, and between two digits
there may be one underscore. The double is the one nearest the decimal value, which is an infinity
when the value is too large.
-/

namespace Isolate.Number

/-- The magnitude nearest a decimal. A decimal with far too many or too few digits before the
point is settled without computing its power of ten. -/
def magnitude (d : Decimal) : Nat :=
  let size := d.exponent + Int.ofNat (Nat.repr d.coefficient).length
  if d.coefficient = 0 ∨ size < -330 then 0
  else if 330 < size then Binary64.infinity
  else Binary64.nearest d.num d.den

/-! ## Normalising -/

/-- White space of every script becomes a space and a digit of every script an ASCII digit. -/
def plainChar (c : Char) : Char :=
  if Text.isBlank c then ' '
  else match Text.digitValue? c with
    | some v => Nat.digitChar v
    | none => c

/-- Spaces dropped at both ends. -/
def strip (cs : List Char) : List Char :=
  ((cs.dropWhile (· = ' ')).reverse.dropWhile (· = ' ')).reverse

/-- Underscores dropped, each of which must stand between two digits; `afterDigit` tells whether
a digit stands before the text. -/
def dropSeparators? (afterDigit : Bool) : List Char → Option (List Char)
  | [] => some []
  | '_' :: c :: rest =>
    if afterDigit && c.isDigit then (dropSeparators? true rest).map (c :: ·) else none
  | c :: rest =>
    if c = '_' then none else (dropSeparators? c.isDigit rest).map (c :: ·)

/-- The text in plain form: no white space around it, ASCII digits, no underscores. -/
def plain? (s : String) : Option (List Char) :=
  dropSeparators? false (strip (s.toList.map plainChar))

/-! ## Numerals -/

/-- A sign, if there is one, and what follows it. -/
def splitSign : List Char → Bool × List Char
  | '-' :: rest => (true, rest)
  | '+' :: rest => (false, rest)
  | cs => (false, cs)

/-- The value of a text made of digits only, at least one. -/
def readDigits? (cs : List Char) : Option Nat :=
  if cs ≠ [] ∧ cs.all Char.isDigit then some (Nat.ofDigitChars 10 cs 0) else none

/-- The value of an exponent with its mark; zero if there is nothing. -/
def readExponent? : List Char → Option Int
  | [] => some 0
  | c :: rest =>
    if c = 'e' ∨ c = 'E' then
      let (negative, digits) := splitSign rest
      (readDigits? digits).map fun n => if negative then -Int.ofNat n else Int.ofNat n
    else none

/-- The decimal that a numeral without a sign stands for. -/
def readDecimal? (cs : List Char) : Option Decimal :=
  let whole := cs.takeWhile Char.isDigit
  let (fraction, rest) := match cs.dropWhile Char.isDigit with
    | '.' :: after => (after.takeWhile Char.isDigit, after.dropWhile Char.isDigit)
    | other => ([], other)
  match readDigits? (whole ++ fraction), readExponent? rest with
  | some n, some e => some ⟨n, e - Int.ofNat fraction.length⟩
  | _, _ => none

/-- The double that an unsigned number stands for, with a given sign. -/
def readUnsigned? (negative : Bool) (cs : List Char) : Option Float :=
  let word := String.ofList (cs.map Char.toLower)
  if word = "inf" ∨ word = "infinity" then some (Binary64.ofMagnitude negative Binary64.infinity)
  else if word = "nan" then some (0.0 / 0.0)
  else (readDecimal? cs).map fun d => Binary64.ofMagnitude negative (magnitude d)

/-- The double that a text stands for, if it stands for one. -/
def read? (s : String) : Option Float :=
  match plain? s with
  | some cs => let (negative, rest) := splitSign cs; readUnsigned? negative rest
  | none => none

end Isolate.Number
