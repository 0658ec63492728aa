import Isolate.Text.Unassigned

/-!
# Character classes

Three classes of characters that the formats of this library need, as tables of code points:

* `isBlank` - white space that may surround a numeral,
* `digitValue?` - decimal digits of every script, with their value,
* `isPrintable` - characters that a quoted text shows as they are.

The tables are those of the Unicode properties `White_Space` and `Nd`, and of the general
categories for separators, controls, format characters and private use; code points without a
character are not printable either.
-/

namespace Isolate.Text

/-! ## White space -/

/-- The white space characters. -/
def blanks : List Range :=
  [⟨0x09, 0x0D⟩, ⟨0x20, 0x20⟩, ⟨0x85, 0x85⟩, ⟨0xA0, 0xA0⟩, ⟨0x1680, 0x1680⟩, ⟨0x2000, 0x200A⟩,
    ⟨0x2028, 0x2029⟩, ⟨0x202F, 0x202F⟩, ⟨0x205F, 0x205F⟩, ⟨0x3000, 0x3000⟩]

/-- White space, in every script. -/
def isBlank (c : Char) : Bool :=
  blanks.any (·.holds c)

/-! ## Decimal digits -/

/-- The code points of the digit zero: the ten digits of a script follow one another. -/
def zeroDigits : List Nat :=
  [0x30, 0x660, 0x6F0, 0x7C0, 0x966, 0x9E6, 0xA66, 0xAE6, 0xB66, 0xBE6, 0xC66, 0xCE6, 0xD66, 0xDE6,
    0xE50, 0xED0, 0xF20, 0x1040, 0x1090, 0x17E0, 0x1810, 0x1946, 0x19D0, 0x1A80, 0x1A90, 0x1B50,
    0x1BB0, 0x1C40, 0x1C50, 0xA620, 0xA8D0, 0xA900, 0xA9D0, 0xA9F0, 0xAA50, 0xABF0, 0xFF10,
    0x104A0, 0x10D30, 0x11066, 0x110F0, 0x11136, 0x111D0, 0x112F0, 0x11450, 0x114D0, 0x11650,
    0x116C0, 0x11730, 0x118E0, 0x11950, 0x11C50, 0x11D50, 0x11DA0, 0x16A60, 0x16AC0, 0x16B50,
    0x1D7CE, 0x1D7D8, 0x1D7E2, 0x1D7EC, 0x1D7F6, 0x1E140, 0x1E2F0, 0x1E950, 0x1FBF0]

/-- The value of a decimal digit of any script. -/
def digitValue? (c : Char) : Option Nat :=
  (zeroDigits.find? fun z => z ≤ c.toNat && c.toNat < z + 10).map (c.toNat - ·)

/-! ## Printable characters -/

/-- Controls, separators other than the space, format characters and private use. -/
def unprintables : List Range :=
  [⟨0x00, 0x1F⟩, ⟨0x7F, 0xA0⟩, ⟨0xAD, 0xAD⟩, ⟨0x600, 0x605⟩, ⟨0x61C, 0x61C⟩, ⟨0x6DD, 0x6DD⟩,
    ⟨0x70F, 0x70F⟩, ⟨0x890, 0x891⟩, ⟨0x8E2, 0x8E2⟩, ⟨0x1680, 0x1680⟩, ⟨0x180E, 0x180E⟩,
    ⟨0x2000, 0x200F⟩, ⟨0x2028, 0x202F⟩, ⟨0x205F, 0x2064⟩, ⟨0x2066, 0x206F⟩, ⟨0x3000, 0x3000⟩,
    ⟨0xE000, 0xF8FF⟩, ⟨0xFEFF, 0xFEFF⟩, ⟨0xFFF9, 0xFFFB⟩, ⟨0x110BD, 0x110BD⟩, ⟨0x110CD, 0x110CD⟩,
    ⟨0x13430, 0x13438⟩, ⟨0x1BCA0, 0x1BCA3⟩, ⟨0x1D173, 0x1D17A⟩, ⟨0xE0001, 0xE0001⟩,
    ⟨0xE0020, 0xE007F⟩, ⟨0xF0000, 0xFFFFD⟩, ⟨0x100000, 0x10FFFD⟩]

/-- Characters that are shown as they are, the space among them. -/
def isPrintable (c : Char) : Bool :=
  !unprintables.any (·.holds c) && !isUnassigned c

/-- The characters that plain ASCII text is made of are printable. -/
theorem isPrintable_of_ascii {c : Char} (h₁ : 0x20 ≤ c.toNat) (h₂ : c.toNat ≤ 0x7E) :
    isPrintable c = true := by
  simp [isPrintable, unprintables, Range.holds, isUnassigned_of_ascii h₂]
  omega

/-- The ASCII digits have their usual values. -/
theorem digitValue?_of_ascii {c : Char} (h : 0x30 ≤ c.toNat ∧ c.toNat < 0x3A) :
    digitValue? c = some (c.toNat - 0x30) := by
  simp [digitValue?, zeroDigits, h.1, h.2]

end Isolate.Text
