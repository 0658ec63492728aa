import Isolate.Tree.Names
import Isolate.Tree.Text

/-!
# Trees in an algebra of symbols

An algebra of symbols puts expressions together, simplifies them and compiles them into functions. A
tree is handed to it node by node: a number is a constant, a variable or a placeholder is a symbol of
its name, whatever is stored on it, a subtracted term is negated and a divisor inverted. What the
algebra makes of this is its own business.

* `Calculus` - what an algebra of symbols offers;
* `Tree.symbolic` - the expression of a tree, `Tree.operand` - or of a plain value in place of one;
* `Tree.isEquivalent` - whether the difference of two trees is simplified to zero;
* `Tree.compiled` - a tree as a function of values for its names.
-/

namespace Isolate

/-- An algebra of symbols: how it puts expressions together, what it makes of them, and how it
compiles them into functions of values. -/
structure Calculus (ε α : Type) where
  integer : Int → ε
  /-- A number that is not whole, or not finite. -/
  real : Float → ε
  symbol : String → ε
  /-- A plain value as an expression. -/
  read : Datum → Except Fault ε
  neg : ε → ε
  sub : ε → ε → ε
  sum : List ε → ε
  product : List ε → ε
  power : ε → ε → ε
  apply : Builtin → ε → ε
  simplify : ε → ε
  /-- Whether an expression is the number zero, as it stands. -/
  isZero : ε → Bool
  /-- The symbols of an expression. -/
  symbols : ε → List String
  /-- An expression as a function whose arguments are named in order. -/
  compile : List String → ε → Except Fault (List α → Except Fault α)

namespace Calculus

variable {ε α : Type}

/-- A double as a constant: a whole number is exact. -/
def number (C : Calculus ε α) (x : Float) : ε :=
  match Binary64.integer? x with
  | some n => C.integer n
  | none => C.real x

/-- A term of a sequence with its sign: a subtracted one is negated, a divisor is inverted. -/
def signed (C : Calculus ε α) (kind : SeqKind) (positive : Bool) (e : ε) : ε :=
  if positive then e
  else match kind with
    | .sum => C.neg e
    | .product => C.power e (C.integer (-1))

/-- The terms of a sequence, put together. -/
def collected (C : Calculus ε α) : SeqKind → List ε → ε
  | .sum, terms => C.sum terms
  | .product, factors => C.product factors

end Calculus

/-- The function with a code, if the algebra has it too: it has those that can be evaluated. -/
def Builtin.shared (id : Int) : Except Fault Builtin :=
  match (ofCode? id).filter hasRule with
  | some f => .ok f
  | none => .error (.notShared id)

namespace Tree

variable {ε α : Type}

mutual

/-- The expression of a tree. -/
def symbolic (C : Calculus ε α) : Tree Float → Except Fault ε
  | const value => .ok (C.number value)
  | var name _ => name.written.map C.symbol
  | hole name => name.written.map C.symbol
  | seq kind terms => do
    let parts ← symbolicTerms C kind terms
    .ok (C.collected kind parts)
  | pow base exponent => do
    let b ← symbolic C base
    let e ← symbolic C exponent
    .ok (C.power b e)
  | fn id argument => do
    let f ← Builtin.shared id
    let a ← symbolic C argument
    .ok (C.apply f a)
  | foreign value => .error (.notNode value)

/-- The expressions of some terms, signs included. -/
def symbolicTerms (C : Calculus ε α) (kind : SeqKind) :
    List (Signed (Tree Float)) → Except Fault (List ε)
  | [] => .ok []
  | ⟨t, positive⟩ :: rest => do
    let e ← symbolic C t
    let others ← symbolicTerms C kind rest
    .ok (C.signed kind positive e :: others)

end

/-- The expression of a tree, or of a plain value in place of one. -/
def operand (C : Calculus ε α) : Tree Float → Except Fault ε
  | foreign value => C.read value
  | t => t.symbolic C

/-- Whether the difference of two trees is simplified to zero. -/
def isEquivalent (C : Calculus ε α) (a b : Tree Float) : Except Fault Bool := do
  let e ← a.operand C
  let f ← b.operand C
  .ok (C.isZero (C.simplify (C.sub e f)))

/-- A tree as a function of values for the given names, or for the names of its variables in order.
-/
def compiled (C : Calculus ε α) (t : Tree Float) (names : Option (List Name)) :
    Except Fault (List α → Except Fault α) := do
  let names ← match names with
    | some names => .ok names
    | none => t.orderedNames
  let symbols ← names.mapM Name.written
  let e ← t.symbolic C
  C.compile symbols e

end Tree

end Isolate
