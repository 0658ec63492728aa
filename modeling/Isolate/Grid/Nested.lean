import Isolate.Datum.Number
import Isolate.Grid.Basic

/-!
# Arrays as nested lists

An array is written as lists inside lists, first axis outermost. `Nested.shape?` finds the lengths
of the axes, if lists at the same level have the same shape, and `Nested.leaves` the elements in
order; `Grid.ofValues` makes them an array, and `Grid.toNested` writes an array back.
-/

namespace Isolate

/-- An element, or a list of nested lists. -/
inductive Nested (α : Type) where
  | item (value : α)
  | list (rows : List (Nested α))

namespace Nested

variable {α : Type}

/-- The shape of a list of rows, by the shapes of the rows. -/
def rowsShape? : List (List Nat) → Option (List Nat)
  | [] => some [0]
  | shape :: rest => if rest.all (· == shape) then some ((rest.length + 1) :: shape) else none

mutual

/-- The lengths of the axes, first axis first. -/
def shape? : Nested α → Option (List Nat)
  | item _ => some []
  | list rows => (shapes? rows).bind rowsShape?

/-- The shapes of some rows. -/
def shapes? : List (Nested α) → Option (List (List Nat))
  | [] => some []
  | row :: rest => do
    let shape ← shape? row
    let others ← shapes? rest
    some (shape :: others)

end

mutual

/-- The elements, row by row. -/
def leaves : Nested α → List α
  | item value => [value]
  | list rows => rowsLeaves rows

/-- The elements of some rows. -/
def rowsLeaves : List (Nested α) → List α
  | [] => []
  | row :: rest => leaves row ++ rowsLeaves rest

end

end Nested

namespace Grid

variable {α : Type}

/-! ## Rows -/

/-- The array with the given dimensions, last axis first, and the given elements in order. -/
def ofValues [Inhabited α] (dims : List Nat) (values : Array α) : Grid α :=
  ⟨dims, fun index => values.getD (offset dims index) default⟩

/-- The rows of an array along the axes that are left, first axis first; the index holds the
positions along the axes before, the innermost first. -/
def rows (entry : List Nat → α) : List Nat → List Nat → Nested α
  | [], index => .item (entry index)
  | length :: axes, index => .list ((List.range length).map fun i => rows entry axes (i :: index))

/-- The lengths of the axes, first axis first. -/
def shape (g : Grid α) : List Nat := g.dims.reverse

/-- An array as nested lists. -/
def toNested (g : Grid α) : Nested α := rows g.entry g.shape []

end Grid

/-! ## Plain values as arrays -/

namespace Datum

mutual

/-- A plain value as nested lists: lists are rows and everything else is an element. -/
def nested : Datum → Nested Datum
  | list items => .list (nestedItems items)
  | d => .item d

/-- Plain values as rows. -/
def nestedItems : List Datum → List (Nested Datum)
  | [] => []
  | d :: rest => nested d :: nestedItems rest

end

/-- The greatest number of axes of an array. -/
def maxAxes : Nat := 64

/-- The dimensions of a plain value, last axis first. -/
def dims (d : Datum) : Except Fault (List Nat) :=
  match d.nested.shape? with
  | some shape => if shape.length ≤ maxAxes then .ok shape.reverse else .error .tooDeep
  | none => .error .ragged

/-- The array that a plain value stands for, where its elements are read in some way. The shape is
found before any element is read, and the elements are read in order. -/
def gridOf (read : Datum → Except Fault Float) (d : Datum) : Except Fault (Grid Float) := do
  let dims ← d.dims
  let values ← d.nested.leaves.mapM read
  .ok (Grid.ofValues dims values.toArray)

/-- The array that a plain value stands for. -/
def grid (d : Datum) : Except Fault (Grid Float) := d.gridOf element

/-- The array that a plain value stands for where doubles are multiplied with it. -/
def factors (d : Datum) : Except Fault (Grid Float) := d.gridOf factor

end Datum

end Isolate
