import Isolate.Tree.Text

/-!
# Formulas as LaTeX

`Tree.latex` brackets a sum inside a sum when it is not the first term with a positive sign, every
sum inside a product, and a base that is neither a constant nor a variable. The factors of a
product stand side by side, the divisors below a line; a product of divisors alone has numerator
one. A leaf whose name is no text has no LaTeX. A sum finds that out when its terms are put
together, after all of them are written, and a function after its own name is looked up.
-/

namespace Isolate.Tree

/-- Whether a node is a sum. -/
def isSum {ν : Type} : Tree ν → Bool
  | seq .sum _ => true
  | _ => false

/-- Whether a node is a constant or a variable, which as a base needs no brackets. -/
def isAtom {ν : Type} : Tree ν → Bool
  | const _ => true
  | var _ _ => true
  | _ => false

/-- Round brackets. -/
def bracketed (needed : Bool) (s : String) : String :=
  if needed then "(" ++ s ++ ")" else s

/-- A numerator over a denominator; an empty numerator is one, an empty denominator leaves the
numerator alone. -/
def quotient (numerator denominator : String) : String :=
  let top := if numerator = "" then "1" else numerator
  if denominator = "" then top else "\x7b" ++ top ++ "\x7d/\x7b" ++ denominator ++ "\x7d"

/-- What is written for a tree, together with what is found after it. A leaf whose name is no text
is refused only then. -/
def followed {ν α : Type} (t : Tree ν) (written : Except Fault String) (next : Except Fault α) :
    Except Fault (String × α) :=
  if t.oddName?.isSome then do
    let a ← next
    let s ← written
    .ok (s, a)
  else do
    let s ← written
    let a ← next
    .ok (s, a)

mutual

/-- A formula as LaTeX. -/
def latex : Tree Float → Except Fault String
  | const value => .ok ("\\mathrm\x7b" ++ Number.constant value ++ "\x7d")
  | var name _ => name.written
  | hole name => name.written
  | seq .sum terms => sumLatex true terms
  | seq .product terms => do
    let (numerator, denominator) ← productLatex terms
    .ok (quotient numerator denominator)
  | pow base exponent => do
    let b ← latex base
    let e ← latex exponent
    let shown := if base.isAtom then b else "\\left(" ++ b ++ "\\right)"
    .ok ("\x7b" ++ shown ++ "\x7d^\x7b" ++ e ++ "\x7d")
  | fn id argument =>
    if id = Builtin.exp.code then do
      let a ← latex argument
      .ok ("e^\x7b" ++ a ++ "\x7d")
    else if id = Builtin.sqrt.code then do
      let a ← latex argument
      .ok ("\\sqrt\x7b" ++ a ++ "\x7d")
    else do
      let (a, f) ← followed argument (latex argument) (Builtin.coded (.int id))
      .ok ("\\mathrm\x7b" ++ f.name ++ "\x7d\\left(" ++ a ++ "\\right)")
  | foreign value => .error (.notNode value)

/-- The terms of a sum; `first` tells whether the first term of the list is the first of the sum. -/
def sumLatex (first : Bool) : List (Signed (Tree Float)) → Except Fault String
  | [] => .ok ""
  | ⟨t, positive⟩ :: rest => do
    let (s, others) ← followed t (latex t) (sumLatex false rest)
    let separator := if first && positive then "" else SeqKind.sum.separator positive
    .ok (separator ++ bracketed (t.isSum && !(first && positive)) s ++ others)

/-- The factors of a product and its divisors, each joined. -/
def productLatex : List (Signed (Tree Float)) → Except Fault (String × String)
  | [] => .ok ("", "")
  | ⟨t, positive⟩ :: rest => do
    let s ← latex t
    let (numerator, denominator) ← productLatex rest
    let shown := bracketed t.isSum s
    .ok (if positive then (shown ++ numerator, denominator) else (numerator, shown ++ denominator))

end

/-- What a tree is written as in LaTeX: a leaf as its name, whatever that is. -/
def writtenLatex : Tree Float → Except Fault Name
  | var name _ => .ok name
  | hole name => .ok name
  | t => t.latex.map .text

end Isolate.Tree
