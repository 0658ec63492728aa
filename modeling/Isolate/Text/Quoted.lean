import Isolate.Text.Charset

/-!
# Quoted text

`quoted s` is the text `s` between quotes on one line: the quote is single unless `s` holds single
quotes and no double ones, the backslash and the enclosing quote are escaped, line feed, carriage
return and tab have escapes of two characters, and every other character that is not printable is
written by its code point in hexadecimal, on two, four or eight digits.
-/

namespace Isolate.Text

/-- The single quote. -/
def singleQuote : Char := '\x27'

/-- The double quote. -/
def doubleQuote : Char := '\x22'

/-- The quote that encloses a text: double only if that saves escaping. -/
def enclosingQuote (s : List Char) : Char :=
  if singleQuote ∈ s ∧ doubleQuote ∉ s then doubleQuote else singleQuote

/-- A number in hexadecimal on `width` digits at least. -/
def hexadecimal (width n : Nat) : List Char :=
  let digits := Nat.toDigits 16 n
  List.replicate (width - digits.length) '0' ++ digits

/-- One character inside a text enclosed in `quote`. -/
def escaped (quote c : Char) : List Char :=
  if c = '\\' ∨ c = quote then ['\\', c]
  else if c = '\n' then ['\\', 'n']
  else if c = '\r' then ['\\', 'r']
  else if c = '\t' then ['\\', 't']
  else if isPrintable c then [c]
  else if c.toNat ≤ 0xFF then '\\' :: 'x' :: hexadecimal 2 c.toNat
  else if c.toNat ≤ 0xFFFF then '\\' :: 'u' :: hexadecimal 4 c.toNat
  else '\\' :: 'U' :: hexadecimal 8 c.toNat

/-- A text between quotes. -/
def quoted (s : String) : String :=
  let quote := enclosingQuote s.toList
  String.ofList (quote :: s.toList.flatMap (escaped quote) ++ [quote])

example : quoted "it" = "\x27it\x27" := by decide +kernel
example : quoted "o\x27k" = "\x22o\x27k\x22" := by decide +kernel
example : quoted "tan\x00" = "\x27tan\\x00\x27" := by decide +kernel

end Isolate.Text
