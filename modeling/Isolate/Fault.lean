import Isolate.Name

/-!
# Faults

`Fault` lists every cause for which an operation of this library refuses, with its wording in
`Fault.message`.
-/

namespace Isolate

/-- Why an operation refuses. -/
inductive Fault where
  /-- A variable has neither a binding nor a stored value. -/
  | unbound (name : Name)
  /-- There is no such function, or it has no evaluation rule. -/
  | unsupported (subject : Datum)
  /-- The algebra of symbols has no function with this code. -/
  | notShared (code : Int)
  /-- A plain value stands where a node belongs. -/
  | notNode (found : Datum)
  /-- A plain value stands where the root of an expression belongs. -/
  | notRoot (found : Datum)
  /-- A plain value stands where a side of an equation belongs. -/
  | notSides
  /-- There is no such traversal order. -/
  | noSuchOrder (order : String)
  /-- A text is not a numeral. -/
  | notNumeral (text : String)
  /-- A value of this type is never a number. -/
  | notNumber (found : Datum)
  /-- A whole number exceeds every double. -/
  | tooLarge
  /-- An array stands where a single number belongs. -/
  | notScalar
  /-- Nested lists of different shapes do not form an array. -/
  | ragged
  /-- An array has more axes than any array can have. -/
  | tooDeep
  /-- Arrays do not broadcast against each other. -/
  | shapes
  /-- There are more columns than can be compared with each other. -/
  | columns
  /-- A column has more axes than can be compared with those of others. -/
  | columnAxes
  /-- A compiled formula depends on a symbol that is no argument of it, is called with the wrong
  number of arguments, or calls a function whose name an argument has taken. -/
  | arguments
  /-- Two arguments of a compiled formula have the same name. -/
  | repeatedArgument
  /-- A name that is no text stands where a text belongs. -/
  | notText (name : Name)
  /-- A name that is a list or a record cannot be looked up. -/
  | notKey (name : Name)
  /-- Names of different types have no order. -/
  | notOrdered
  /-- A ratio or a power of plain numbers exceeds every double. -/
  | overflow
  /-- Several answers stand where a single one belongs, or none. -/
  | ambiguous
  /-- A whole number does not fit into a machine word. -/
  | tooWide
  /-- A number is not real. -/
  | notReal
  /-- A function has no single value at a constant. -/
  | unsettled
  /-- A whole number has too many digits to be written. -/
  | tooLong
  /-- An operation has no value at its operands. -/
  | undefined
deriving DecidableEq

namespace Fault

/-- The wording of a fault. -/
def message : Fault → String
  | unbound name => "Variable \x27" ++ name.shown ++ "\x27 was not initialized."
  | unsupported subject => "Unsupported function: " ++ subject.shown
  | notShared code => code.repr
  | notNode found => "Expected a Node, got " ++ found.typeName
  | notRoot found => "Expression root must be a Node, got " ++ found.typeName
  | notSides => "Both sides of an equation must be Node instances"
  | noSuchOrder order => "Invalid traversal_order: " ++ order
  | notNumeral text => "could not convert string to float: " ++ Text.quoted text
  | notNumber found =>
    "float() argument must be a string or a real number, not \x27" ++ found.typeName ++ "\x27"
  | tooLarge => "int too large to convert to float"
  | notScalar => "only 0-dimensional arrays can be converted to Python scalars"
  | ragged => "nested lists of different shapes"
  | tooDeep => "too many axes"
  | shapes => "shapes do not broadcast"
  | columns => "too many columns"
  | columnAxes => "a column has too many axes"
  | arguments => "arguments do not match the symbols"
  | repeatedArgument => "two arguments have the same name"
  | notText name => "expected a text, got " ++ name.shown
  | notKey name => "cannot look up " ++ name.shown
  | notOrdered => "names of different types"
  | overflow => "the result exceeds every double"
  | ambiguous => "not a single answer"
  | tooWide => "a whole number does not fit into a machine word"
  | notReal => "float() argument must be a string or a real number, not \x27complex\x27"
  | unsettled => "no single value"
  | tooLong => "too many digits"
  | undefined => "no value"

end Fault

end Isolate
