import Isolate.Builtin

/-!
# Formula trees

A `Tree ν` is a formula over numbers of type `ν`: constants, named variables with or without a
stored value, named placeholders, sums and products of signed terms, powers and function
applications. Whoever assigns to a node directly can also leave an unknown function code, a name
that is no text, or a plain value in place of a child (`Tree.foreign`); a tree built by the
constructors of `Isolate.Tree.Build` has none of these.

* `Signed` - a term with its sign: added or subtracted, multiplied or divided by;
* `Tree.children`, `Tree.count`, `Tree.depth` - the shape of a tree;
* `Tree.kind?`, `Kind.code`, `Kind.className` - the seven kinds of node and their labels.
-/

namespace Isolate

-- Sums start from the built-in zero, whatever else is imported.
attribute [local instance (2000)] Zero.ofOfNat0

/-- An item with a sign. -/
structure Signed (α : Type) where
  item : α
  positive : Bool
deriving Repr, DecidableEq

/-- A function applied to the item; the sign stays. -/
def Signed.map {α β : Type} (f : α → β) (s : Signed α) : Signed β := ⟨f s.item, s.positive⟩

/-- The two kinds of sequence: a negative term is subtracted from a sum, and divides a product. -/
inductive SeqKind where
  | sum
  | product
deriving Repr, DecidableEq

/-- A formula over numbers of type `ν`. -/
inductive Tree (ν : Type) where
  /-- A number. -/
  | const (value : ν)
  /-- A variable, with the value stored on this leaf if there is one. -/
  | var (name : Name) (value : Option ν)
  /-- A named placeholder, whose value is zero. -/
  | hole (name : Name)
  /-- A sum or a product of signed terms. -/
  | seq (kind : SeqKind) (terms : List (Signed (Tree ν)))
  /-- A power. -/
  | pow (base exponent : Tree ν)
  /-- The function with a code, applied to an argument. An entry of the table of functions and the
  plain number that it is equal to are the same code. -/
  | fn (id : Int) (argument : Tree ν)
  /-- A plain value in place of a node. -/
  | foreign (value : Datum)
deriving Inhabited

namespace Tree

variable {ν : Type}

/-! ## Induction -/

/-- Induction over a tree: a property holds of every tree if it holds of the leaves and passes from
the terms, operands and argument of a node to the node. -/
@[induction_eliminator]
theorem induction {motive : Tree ν → Prop}
    (const : ∀ v, motive (const v)) (var : ∀ n v, motive (var n v)) (hole : ∀ n, motive (hole n))
    (seq : ∀ k ts, (∀ t ∈ ts, motive t.item) → motive (seq k ts))
    (pow : ∀ b e, motive b → motive e → motive (pow b e))
    (fn : ∀ i a, motive a → motive (fn i a)) (foreign : ∀ d, motive (foreign d)) :
    ∀ t, motive t :=
  @Tree.rec ν motive (fun ts => ∀ t ∈ ts, motive t.item) (fun s => motive s.item)
    const var hole seq pow fn foreign
    (by simp) (fun _ _ hs hts t ht => by
      rcases List.mem_cons.1 ht with rfl | h
      · exact hs
      · exact hts t h)
    (fun _ _ h => h)

/-! ## Shape -/

/-- The children of a node, in order. -/
def children : Tree ν → List (Tree ν)
  | seq _ terms => terms.map (·.item)
  | pow base exponent => [base, exponent]
  | fn _ argument => [argument]
  | _ => []

mutual

/-- The number of nodes. -/
def count : Tree ν → Nat
  | seq _ terms => 1 + countTerms terms
  | pow base exponent => 1 + (count base + count exponent)
  | fn _ argument => 1 + count argument
  | _ => 1

/-- The number of nodes in a list of terms. -/
def countTerms : List (Signed (Tree ν)) → Nat
  | [] => 0
  | ⟨t, _⟩ :: rest => count t + countTerms rest

end

mutual

/-- The number of nodes on the longest path down from the root. -/
def depth : Tree ν → Nat
  | seq _ terms => 1 + depthTerms terms
  | pow base exponent => 1 + max (depth base) (depth exponent)
  | fn _ argument => 1 + depth argument
  | _ => 1

/-- The greatest depth in a list of terms. -/
def depthTerms : List (Signed (Tree ν)) → Nat
  | [] => 0
  | ⟨t, _⟩ :: rest => max (depth t) (depthTerms rest)

end

/-- Induction over a tree, all children of a node at once. -/
theorem induction_children {motive : Tree ν → Prop}
    (node : ∀ t, (∀ c ∈ t.children, motive c) → motive t) (t : Tree ν) : motive t := by
  induction t with
  | seq k ts ih =>
    refine node _ fun c hc => ?_
    obtain ⟨s, hs, rfl⟩ := List.mem_map.1 hc
    exact ih s hs
  | pow b e ihb ihe =>
    refine node _ fun c hc => ?_
    rcases List.mem_cons.1 hc with rfl | hc
    · exact ihb
    · obtain rfl := List.mem_singleton.1 hc
      exact ihe
  | fn i a ih =>
    refine node _ fun c hc => ?_
    obtain rfl := List.mem_singleton.1 hc
    exact ih
  | _ => exact node _ fun c hc => absurd hc (List.not_mem_nil)

/-- A node with its children is one more than the children together. -/
theorem count_eq_children (t : Tree ν) : t.count = 1 + (t.children.map (·.count)).sum := by
  cases t with
  | seq k ts =>
    have h : ∀ ts : List (Signed (Tree ν)), countTerms ts = (ts.map fun t => t.item.count).sum := by
      intro ts
      induction ts with
      | nil => rfl
      | cons t ts ih => simp [countTerms, ih]
    simp [count, children, h, Function.comp_def]
  | _ => simp [count, children]

theorem depth_pos (t : Tree ν) : 0 < t.depth := by
  cases t <;> simp only [depth] <;> omega

/-- A term is less deep than the sequence it belongs to. -/
theorem depth_lt_of_mem {k : SeqKind} {ts : List (Signed (Tree ν))} {t : Signed (Tree ν)}
    (h : t ∈ ts) : t.item.depth < (seq k ts).depth := by
  have : t.item.depth ≤ depthTerms ts := by
    induction ts with
    | nil => simp at h
    | cons s ts ih =>
      simp only [depthTerms]
      rcases List.mem_cons.1 h with rfl | h
      · exact Nat.le_max_left _ _
      · exact Nat.le_trans (ih h) (Nat.le_max_right _ _)
  simp only [depth]
  omega

end Tree

/-! ## Kinds -/

/-- The seven kinds of node. -/
inductive Kind where
  | var | const | sum | product | pow | fn | hole
deriving Repr, DecidableEq

namespace Kind

/-- Every kind, in the order of the codes. -/
def all : List Kind := [var, const, sum, product, pow, fn, hole]

/-- The number of a kind; the codes start from one. -/
def code : Kind → Nat
  | var => 1 | const => 2 | sum => 3 | product => 4 | pow => 5 | fn => 6 | hole => 7

/-- The name of a kind. -/
def name : Kind → String
  | var => "variable"
  | const => "constant"
  | sum => "addition"
  | product => "multiplication"
  | pow => "exponentiation"
  | fn => "function"
  | hole => "placeholder"

/-- The name of the nodes of a kind. -/
def className (k : Kind) : String := k.name.capitalize ++ "Node"

end Kind

/-- The kind of node that a sequence is. -/
def SeqKind.kind : SeqKind → Kind
  | sum => .sum
  | product => .product

/-- The kind of a node; a plain value has none. -/
def Tree.kind? {ν : Type} : Tree ν → Option Kind
  | const _ => some .const
  | var _ _ => some .var
  | hole _ => some .hole
  | seq k _ => some k.kind
  | pow _ _ => some .pow
  | fn _ _ => some .fn
  | foreign _ => none

end Isolate
