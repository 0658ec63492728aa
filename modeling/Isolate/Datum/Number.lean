import Isolate.Fault
import Isolate.Number.Reading

/-!
# Numbers among plain values

`Datum.number` reads a plain value as one double: a number is rounded to the nearest double, a
truth value is zero or one, and a text is read as a numeral. `Datum.factor` reads a plain value that
a double is multiplied with: a text is none, and a whole number must fit into a machine word.
-/

namespace Isolate.Datum

-- Powers of numbers are the built-in ones, whatever else is imported.
attribute [local instance (2000)] instPowNat

/-- The double that a plain value stands for. -/
def number : Datum → Except Fault Float
  | bool b => .ok (if b then 1 else 0)
  | int n =>
    match Binary64.ofInt? n with
    | some x => .ok x
    | none => .error .tooLarge
  | real x => .ok x
  | text s =>
    match Number.read? s with
    | some x => .ok x
    | none => .error (.notNumeral s)
  | found => .error (.notNumber found)

/-- The double that an element of an array stands for: nothing is not a number. -/
def element : Datum → Except Fault Float
  | null => .ok (0.0 / 0.0)
  | found => found.number

/-- The double that a plain value stands for where it is multiplied with a double. A whole number is
at least `-2 ^ 63` and below `2 ^ 64`. -/
def factor : Datum → Except Fault Float
  | bool b => number (bool b)
  | int n => if -2 ^ (63 : Nat) ≤ n ∧ n < 2 ^ (64 : Nat) then number (int n) else .error .undefined
  | real x => .ok x
  | _ => .error .undefined

end Isolate.Datum
