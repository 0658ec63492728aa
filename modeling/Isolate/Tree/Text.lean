import Isolate.Tree.Basic

/-!
# Formulas as text

`Tree.text` writes every term, base and exponent between parentheses, so that the text of a tree
needs no rules of precedence: `(2)*(x)`, `(x)^(2)`, `sin(x)`. A separator stands before every term
but a first one with a positive sign. A leaf is written as its name; `Tree.written` also answers a
name that is no text. `Tree.described` wraps what a tree is written as in the name of the node's
kind.
-/

namespace Isolate

/-- The text of a name; a name that is no text has none. -/
def Name.written : Name → Except Fault String
  | text name => .ok name
  | name => .error (.notText name)

/-- The name of a leaf if it is no text, written out. -/
def Tree.oddName? {ν : Type} : Tree ν → Option String
  | var (.other name) _ => some name.shown
  | hole (.other name) => some name.shown
  | _ => none

/-- What stands before a term with a sign. -/
def SeqKind.separator : SeqKind → Bool → String
  | sum, true => "+"
  | sum, false => "-"
  | product, true => "*"
  | product, false => "/"

namespace Tree

/-- The text of an operand or argument, which shows even a name that is no text; a term shows only
what is text. -/
def operandText {ν : Type} (t : Tree ν) (text : Except Fault String) : Except Fault String :=
  match t.oddName? with
  | some shown => .ok shown
  | none => text

mutual

/-- A formula as text. -/
def text : Tree Float → Except Fault String
  | const value => .ok (Number.constant value)
  | var name _ => name.written
  | hole name => name.written
  | seq kind terms => termsText kind true terms
  | pow base exponent => do
    let b ← operandText base (text base)
    let e ← operandText exponent (text exponent)
    .ok ("(" ++ b ++ ")^(" ++ e ++ ")")
  | fn id argument => do
    let f ← Builtin.coded (.int id)
    let a ← operandText argument (text argument)
    .ok (f.name ++ "(" ++ a ++ ")")
  | foreign value => .error (.notNode value)

/-- The terms of a sequence as text; `first` tells whether the first term of the list is the first
of the sequence. -/
def termsText (kind : SeqKind) (first : Bool) : List (Signed (Tree Float)) → Except Fault String
  | [] => .ok ""
  | ⟨t, positive⟩ :: rest => do
    let s ← text t
    let others ← termsText kind false rest
    .ok ((if first && positive then "" else kind.separator positive) ++ "(" ++ s ++ ")" ++ others)

end

/-- What a tree is written as: a leaf as its name, whatever that is, and any other tree as its
text. -/
def written : Tree Float → Except Fault Name
  | var name _ => .ok name
  | hole name => .ok name
  | t => t.text.map .text

/-- Where a tree has a text, that is what it is written as. -/
theorem written_of_text {t : Tree Float} {s : String} (h : t.text = .ok s) :
    t.written = .ok (.text s) := by
  cases t with
  | var name value => cases name <;> simp_all [text, written, Name.written]
  | hole name => cases name <;> simp_all [text, written, Name.written]
  | _ => simp only [written, h, Except.map]

/-- The name of a tree's class. -/
def className (t : Tree Float) : String :=
  match t with
  | foreign value => value.typeName
  | _ => (t.kind?.map Kind.className).getD ""

/-- The kind of a node around what it is written as. -/
def described (t : Tree Float) : Except Fault String := do
  let name ← t.written
  .ok (t.className ++ "(" ++ name.quoted ++ ")")

/-- The name of the function that a node applies; other nodes have none. -/
def functionName (t : Tree Float) : Except Fault String :=
  match t with
  | fn id _ => (Builtin.coded (.int id)).map Builtin.name
  | _ => .error .undefined

end Tree

end Isolate
