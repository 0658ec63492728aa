import Isolate.Fault

/-!
# Arrays that broadcast

A `Grid α` is an array of any number of dimensions. Its dimensions and its indices are listed *last
axis first*, because that is how arrays of different dimensions are aligned: with this order two
grids agree axis by axis from the head of the list.

* `broadcast?` - the common dimensions of two grids: along each axis the lengths are equal, or one
  of them is one, and missing axes are free;
* `Grid.get` - the element of a grid at an index of any grid it broadcasts to;
* `Grid.zipWith`, `Grid.expand` - elementwise operations and stretching;
* `Grid.flat`, `Grid.reshape` - the elements in order, along one axis or under other dimensions.
-/

namespace Isolate

/-! ## Dimensions -/

/-- The common length of two axes. -/
def commonLength? (a b : Nat) : Option Nat :=
  if a = b then some a else if a = 1 then some b else if b = 1 then some a else none

/-- The common dimensions of two grids, last axis first. -/
def broadcast? : List Nat → List Nat → Option (List Nat)
  | [], dims => some dims
  | dims, [] => some dims
  | a :: as, b :: bs => do
    let length ← commonLength? a b
    let rest ← broadcast? as bs
    some (length :: rest)

/-- The common dimensions of any number of grids. -/
def broadcastAll? (shapes : List (List Nat)) : Option (List Nat) :=
  shapes.foldlM broadcast? []

/-- An index of a larger grid, seen in a grid with the given dimensions: axes that the grid lacks
are dropped, and along an axis of length one there is only the index zero. -/
def project (dims index : List Nat) : List Nat :=
  List.zipWith (fun length i => if length = 1 then 0 else i) dims index

/-! ## Grids -/

/-- An array with dimensions, last axis first. -/
structure Grid (α : Type) where
  dims : List Nat
  entry : List Nat → α

namespace Grid

variable {α β γ : Type}

/-- An array without dimensions. -/
def scalar (a : α) : Grid α := ⟨[], fun _ => a⟩

/-- The element at an index of a grid that this one broadcasts to. -/
def get (g : Grid α) (index : List Nat) : α := g.entry (project g.dims index)

/-- The single element of an array without dimensions. -/
def toScalar (g : Grid α) : Except Fault α :=
  if g.dims = [] then .ok (g.entry []) else .error .notScalar

/-- The first element of an array, as an array without dimensions. -/
def first (g : Grid α) : Grid α := scalar (g.entry (g.dims.map fun _ => 0))

/-- A function applied to every element. -/
def map (f : α → β) (g : Grid α) : Grid β := ⟨g.dims, fun index => f (g.entry index)⟩

/-- An operation applied element by element, over the common dimensions. -/
def zipWith (f : α → β → γ) (g : Grid α) (h : Grid β) : Except Fault (Grid γ) :=
  match broadcast? g.dims h.dims with
  | some dims => .ok ⟨dims, fun index => f (g.get index) (h.get index)⟩
  | none => .error .shapes

/-- An array stretched to larger dimensions. -/
def expand (g : Grid α) (dims : List Nat) : Except Fault (Grid α) :=
  if broadcast? g.dims dims = some dims then .ok ⟨dims, g.get⟩ else .error .shapes

/-! ## Elements in order -/

/-- How many elements an array with the given dimensions has. -/
def size (dims : List Nat) : Nat := dims.foldr (· * ·) 1

/-- How many elements stand before an index, last axis first. -/
def offset : List Nat → List Nat → Nat
  | length :: dims, i :: index => i + length * offset dims index
  | _, _ => 0

/-- The index that a number of elements stand before, last axis first. -/
def indexAt : List Nat → Nat → List Nat
  | [], _ => []
  | length :: dims, place => place % length :: indexAt dims (place / length)

/-- The elements in order, under other dimensions that have room for as many. -/
def reshape (g : Grid α) (dims : List Nat) : Grid α :=
  ⟨dims, fun index => g.entry (indexAt g.dims (offset dims index))⟩

/-- The elements in order, along a single axis. -/
def flat (g : Grid α) : Grid α := g.reshape [size g.dims]

end Grid

end Isolate
