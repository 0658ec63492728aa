import Isolate.Tree.Walk

/-!
# Variables, bound and listed

* `assign name value` stores a value on every variable leaf with a name, from left to right. The
  value is given as the outcome of reading it, which matters only at a leaf that takes it: there an
  unreadable value stops the assignment, as a plain value in place of a node does anywhere.
* `store` stores a value on one leaf.
* `evaluatesConstant listed` holds of a tree whose variables all have a stored value and are not
  listed;
* `Listing` tells how names can be listed, `Listing.ofNames` lists some names one by one, and
  `isConstantOver` asks the same question where a name need not be a text.
-/

namespace Isolate.Tree

variable {ν : Type}

mutual

/-- The tree after assigning to the variable leaves with a name, and the fault that stopped the
assignment if there was one. -/
def assign (name : String) (value : Except Fault ν) : Tree ν → Tree ν × Option Fault
  | var n stored =>
    if n.isText name then
      match value with
      | .ok x => (var n (some x), none)
      | .error fault => (var n stored, some fault)
    else (var n stored, none)
  | seq kind terms =>
    let (terms', fault) := assignTerms name value terms
    (seq kind terms', fault)
  | pow base exponent =>
    match assign name value base with
    | (base', some fault) => (pow base' exponent, some fault)
    | (base', none) =>
      let (exponent', fault) := assign name value exponent
      (pow base' exponent', fault)
  | fn id argument =>
    let (argument', fault) := assign name value argument
    (fn id argument', fault)
  | foreign found => (foreign found, some (.notNode found))
  | t => (t, none)

/-- The terms of a sequence after the same assignment. -/
def assignTerms (name : String) (value : Except Fault ν) :
    List (Signed (Tree ν)) → List (Signed (Tree ν)) × Option Fault
  | [] => ([], none)
  | ⟨t, positive⟩ :: rest =>
    match assign name value t with
    | (t', some fault) => (⟨t', positive⟩ :: rest, some fault)
    | (t', none) =>
      let (rest', fault) := assignTerms name value rest
      (⟨t', positive⟩ :: rest', fault)

end

/-- A constant with another value, or a variable leaf with a stored one; other nodes take no
value. -/
def store (value : Except Fault ν) : Tree ν → Tree ν × Option Fault
  | const old =>
    match value with
    | .ok x => (const x, none)
    | .error fault => (const old, some fault)
  | var n stored =>
    match value with
    | .ok x => (var n (some x), none)
    | .error fault => (var n stored, some fault)
  | t => (t, some .undefined)

/-- Whether one list stands somewhere inside another, without gaps. -/
def isPart {α : Type} [BEq α] (part : List α) : List α → Bool
  | [] => part.isEmpty
  | a :: rest => part.isPrefixOf (a :: rest) || isPart part rest

/-- A part of a list is what stands between a beginning and an end of it. -/
theorem isPart_iff {α : Type} [BEq α] [LawfulBEq α] {part whole : List α} :
    isPart part whole = true ↔ part <:+: whole := by
  induction whole with
  | nil => simp [isPart]
  | cons a rest ih =>
    rw [isPart, Bool.or_eq_true, ih, List.isPrefixOf_iff_prefix, List.infix_cons_iff]

/-- The names that are listed: some names one by one, or all the parts of one text, the empty name
among them. -/
inductive Listing where
  | names (each : List Name)
  | partsOf (text : String)

/-- Some names as a listing; every one of them must be one that can be looked up. -/
def Listing.ofNames (each : List Name) : Except Fault Listing :=
  match each.find? fun name => !name.isKey with
  | some name => .error (.notKey name)
  | none => .ok (.names each)

/-- Whether a text is listed. -/
def Listing.holds : Listing → String → Bool
  | names each, name => each.contains (.text name)
  | partsOf text, name => isPart name.toList text.toList

/-- Whether a name is listed. Only a text can be a part of a text, and only a name that can be
looked up can be one of several. -/
def Listing.has (listing : Listing) (name : Name) : Except Fault Bool :=
  match listing, name with
  | listing, .text name => .ok (listing.holds name)
  | names each, name => if name.isKey then .ok (each.any name.isSame) else .error (.notKey name)
  | partsOf _, name => .error (.notText name)

mutual

/-- Whether every variable of a tree has a stored value and is not listed. -/
def evaluatesConstant (listed : String → Bool) : Tree ν → Bool
  | var name value => !name.text?.any listed && value.isSome
  | seq _ terms => termsEvaluateConstant listed terms
  | pow base exponent => evaluatesConstant listed base && evaluatesConstant listed exponent
  | fn _ argument => evaluatesConstant listed argument
  | _ => true

/-- Whether every variable of some terms has a stored value and is not listed. -/
def termsEvaluateConstant (listed : String → Bool) : List (Signed (Tree ν)) → Bool
  | [] => true
  | ⟨t, _⟩ :: rest => evaluatesConstant listed t && termsEvaluateConstant listed rest

end

/-- Some terms have known values when every one of them has. -/
theorem termsEvaluateConstant_iff {listed : String → Bool} {ts : List (Signed (Tree ν))} :
    termsEvaluateConstant listed ts = true ↔ ∀ t ∈ ts, t.item.evaluatesConstant listed = true := by
  induction ts with
  | nil => simp [termsEvaluateConstant]
  | cons t ts ih => simp [termsEvaluateConstant, ih]

/-- The variable leaves of a tree from left to right, each with its stored value. -/
def variableLeaves (t : Tree ν) : List (Name × Option ν) :=
  t.preorder.filterMap fun
    | var name stored => some (name, stored)
    | _ => none

@[simp] theorem variableLeaves_var (name : Name) (stored : Option ν) :
    (var name stored).variableLeaves = [(name, stored)] := rfl

@[simp] theorem variableLeaves_seq (kind : SeqKind) (terms : List (Signed (Tree ν))) :
    (seq kind terms).variableLeaves = terms.flatMap (·.item.variableLeaves) := by
  rw [variableLeaves, preorder_eq, List.filterMap_cons, List.filterMap_flatMap, children,
    List.flatMap_map]
  rfl

@[simp] theorem variableLeaves_pow (base exponent : Tree ν) :
    (pow base exponent).variableLeaves = base.variableLeaves ++ exponent.variableLeaves := by
  simp [variableLeaves, preorder]

@[simp] theorem variableLeaves_fn (id : Int) (argument : Tree ν) :
    (fn id argument).variableLeaves = argument.variableLeaves := by
  simp [variableLeaves, preorder]

/-- Whether a tree evaluates to a constant where names are listed. The nodes are asked one by one
until a variable is listed or has no value; a name that cannot be listed is refused, and so is a
plain value in place of a node. -/
def isConstantOver (listing : Listing) (t : Tree ν) : Except Fault Bool :=
  t.preorder.allM fun
    | var name stored => do
      let listed ← listing.has name
      .ok (!listed && stored.isSome)
    | foreign found => .error (.notNode found)
    | _ => .ok true

end Isolate.Tree
