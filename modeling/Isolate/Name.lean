import Isolate.Datum.Basic

/-!
# Names

A `Name` is the name of a leaf. It is a text, but whoever assigns to a leaf directly can leave any
plain value there.

* `Name.shown`, `Name.quoted` - a name in a message and in a description;
* `Name.isKey`, `Name.isSame` - names that can be looked up, and when two of them are the same;
* `Name.sorted?` - names in order, each once, if they have an order.
-/

namespace Isolate

/-- The name of a leaf. It is a text, but whoever assigns to a leaf directly can leave any value
there. -/
inductive Name where
  | text (name : String)
  | other (value : Datum)
deriving DecidableEq

namespace Name

/-- The text of a name that is one. -/
def text? : Name → Option String
  | text name => some name
  | other _ => none

/-- A name as it appears in a message. -/
def shown : Name → String
  | text name => name
  | other value => value.shown

/-- A name as it appears inside a description: a text between quotes, any other value as it is. -/
def quoted : Name → String
  | text name => Text.quoted name
  | other value => value.shown

/-- Whether a name can be looked up among others: a list and a record cannot. -/
def isKey : Name → Bool
  | other (.list _) => false
  | other (.record _) => false
  | _ => true

/-- The number that a name is; the truth values are zero and one. -/
def number? : Name → Option Rat
  | other (.real x) => Binary64.rational? x
  | other value => value.whole?.map fun n => (n : Rat)
  | text _ => none

/-- Whether two names count as one when they are looked up: numbers are compared by value. -/
def isSame (n m : Name) : Bool :=
  match n.number?, m.number? with
  | some a, some b => a == b
  | _, _ => n == m

/-- Whether a name is a given text. -/
def isText (n : Name) (name : String) : Bool :=
  n.text? == some name

@[simp] theorem text?_text (name : String) : (text name).text? = some name := rfl

@[simp] theorem isKey_text (name : String) : (text name).isKey = true := rfl

@[simp] theorem isText_text (n name : String) : (text n).isText name = (n == name) := by
  simp [isText]

/-! ## Names in order -/

/-- Every name once, at its first place. -/
def distinct : List Name → List Name
  | [] => []
  | n :: rest => n :: (distinct rest).filter fun m => !n.isSame m

/-- Names in order, each once: texts by code point and numbers by value. Names of different types
have no order. -/
def sorted? (names : List Name) : Option (List Name) :=
  let each := distinct names
  if each.length ≤ 1 then some each
  else if each.all (·.text?.isSome) then
    some (each.mergeSort fun n m => decide (n.text?.getD "" ≤ m.text?.getD ""))
  else if each.all (·.number?.isSome) then
    some (each.mergeSort fun n m => decide (n.number?.getD 0 ≤ m.number?.getD 0))
  else none

end Name

end Isolate
