import Isolate.Tree.Walk

/-!
# Visitors

A `Visitor` has a method for every kind of node. A node calls the method of its own kind, and a
whole tree is visited node by node, each before its children and the children from left to right.
A method works on what has been gathered so far, and may refuse the node.

* `Tree.accept` - the call that a single node makes;
* `Tree.acceptAll` - the calls of a tree.
-/

namespace Isolate

/-- A method for every kind of node. -/
abbrev Visitor (ν σ : Type) := Kind → Tree ν → σ → Except Fault σ

namespace Tree

variable {ν σ : Type}

/-- The call that a node makes; a plain value makes none. -/
def accept (visitor : Visitor ν σ) (t : Tree ν) (gathered : σ) : Except Fault σ :=
  match t with
  | const _ => visitor .const t gathered
  | var _ _ => visitor .var t gathered
  | hole _ => visitor .hole t gathered
  | seq .sum _ => visitor .sum t gathered
  | seq .product _ => visitor .product t gathered
  | pow _ _ => visitor .pow t gathered
  | fn _ _ => visitor .fn t gathered
  | foreign value => .error (.notNode value)

mutual

/-- The calls of a tree: first that of the root, then those of its children. -/
def acceptAll (visitor : Visitor ν σ) (gathered : σ) : Tree ν → Except Fault σ
  | seq kind terms => do
    let gathered ← accept visitor (seq kind terms) gathered
    acceptTerms visitor gathered terms
  | pow base exponent => do
    let gathered ← accept visitor (pow base exponent) gathered
    let gathered ← acceptAll visitor gathered base
    acceptAll visitor gathered exponent
  | fn id argument => do
    let gathered ← accept visitor (fn id argument) gathered
    acceptAll visitor gathered argument
  | t => accept visitor t gathered

/-- The calls of some terms, from left to right. -/
def acceptTerms (visitor : Visitor ν σ) (gathered : σ) :
    List (Signed (Tree ν)) → Except Fault σ
  | [] => .ok gathered
  | ⟨t, _⟩ :: rest => do
    let gathered ← acceptAll visitor gathered t
    acceptTerms visitor gathered rest

end

end Tree

end Isolate
