import Isolate.Tree.Basic

/-!
# Building and copying trees

The operations of this file check what they are given, so that a tree built by them alone holds no
plain values and only functions that can be evaluated.

* `addTerm`, `ofTerms` - sequences, term by term;
* `power`, `apply` - powers and function applications;
* `clone` - the same tree, rebuilt from its leaves by the same operations; it is refused exactly
  where one of them refuses.
-/

namespace Isolate.Tree

variable {ν : Type}

/-! ## Checked construction -/

/-- A tree, unless it is a plain value. -/
def checked : Tree ν → Except Fault (Tree ν)
  | foreign value => .error (.notNode value)
  | t => .ok t

/-- A sequence with one more term; other nodes take no terms. -/
def addTerm (t term : Tree ν) (positive : Bool) : Except Fault (Tree ν) :=
  match t with
  | seq kind terms => (checked term).map fun item => seq kind (terms ++ [⟨item, positive⟩])
  | _ => .error .undefined

/-- The sequence of some terms, which are added from left to right. -/
def ofTerms (kind : SeqKind) (terms : List (Signed (Tree ν))) : Except Fault (Tree ν) :=
  terms.foldlM (fun t s => addTerm t s.item s.positive) (seq kind [])

/-- A power; the base is checked first. -/
def power (base exponent : Tree ν) : Except Fault (Tree ν) := do
  let b ← checked base
  let e ← checked exponent
  .ok (pow b e)

/-- A function applied to an argument; the function is checked first. -/
def apply (id : Datum) (argument : Tree ν) : Except Fault (Tree ν) := do
  let f ← Builtin.check id
  let a ← checked argument
  .ok (fn f.code a)

/-! ## Copies -/

mutual

/-- A tree rebuilt from its leaves. -/
def clone : Tree ν → Except Fault (Tree ν)
  | const value => .ok (const value)
  | var name value => .ok (var name value)
  | hole name => .ok (hole name)
  | seq kind terms => do ofTerms kind (← cloneTerms terms)
  | pow base exponent => do
    let b ← clone base
    let e ← clone exponent
    power b e
  | fn id argument => do
    let a ← clone argument
    apply (.int id) a
  | foreign value => .error (.notNode value)

/-- The terms of a sequence, each rebuilt. -/
def cloneTerms : List (Signed (Tree ν)) → Except Fault (List (Signed (Tree ν)))
  | [] => .ok []
  | ⟨t, positive⟩ :: rest => do
    let item ← clone t
    let others ← cloneTerms rest
    .ok (⟨item, positive⟩ :: others)

end

end Isolate.Tree
