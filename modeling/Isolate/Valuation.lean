import Isolate.Evaluation
import Isolate.Grid.Nested

/-!
# Values of formulas

A `Table` gives columns to names. Of a `Column` the dimensions are found first, and the array only
when a variable asks for it; either can be refused. `Samples` are the columns that a caller gives as
plain values.

* `Tree.resultOn` - the array that a tree evaluates to in a kernel, of its own shape;
* `Tree.resultOver` - the same, stretched to the common shape of all columns, used or not;
* `Tree.result` - the single element that a tree evaluates to;
* `Tree.valueOn`, `Tree.valueOver`, `Tree.value` - these three in the arithmetic of doubles.
-/

namespace Isolate

/-! ## Columns -/

/-- What is known of a column: its dimensions, and the array. -/
structure Column (α : Type) where
  dims : Except Fault (List Nat)
  grid : Except Fault (Grid α)

/-- Columns by name. -/
abbrev Table (α : Type) := List (String × Column α)

namespace Table

variable {α : Type}

/-- The arrays of the columns, read on demand. -/
def columns (table : Table α) : Columns (Grid α) :=
  fun name => (table.lookup name).map (·.grid)

/-- The common dimensions of the columns. -/
def commonDims (table : Table α) : Except Fault (List Nat) := do
  let shapes ← table.mapM fun entry => entry.2.dims
  match broadcastAll? shapes with
  | some dims => .ok dims
  | none => .error .shapes

/-- An array stretched to the common shape of the columns, if there are any. -/
def stretch (table : Table α) (g : Grid α) : Except Fault (Grid α) :=
  if table.isEmpty then .ok g
  else do
    let dims ← table.commonDims
    g.expand dims

/-- The greatest number of columns that can be compared with each other. -/
def limit : Nat := 64

/-- The greatest number of axes of a column that is compared with others. -/
def axisLimit : Nat := 32

/-- Refuses columns that are too many, or have too many axes, to be compared with each other. -/
def checkLimits (table : Table α) : Except Fault Unit := do
  let shapes ← table.mapM fun entry => entry.2.dims
  if shapes.length > limit then .error .columns
  else if shapes.any fun dims => decide (dims.length > axisLimit) then .error .columnAxes
  else .ok ()

/-- Some arrays as columns. -/
def ofGrids (grids : List (String × Grid α)) : Table α :=
  grids.map fun (name, g) => (name, ⟨.ok g.dims, .ok g⟩)

end Table

/-- Columns of samples, or single bindings, by name. -/
abbrev Samples := List (String × Datum)

/-- Plain values as columns. -/
def Samples.table (samples : Samples) : Table Float :=
  samples.map fun (name, d) => (name, ⟨d.dims, d.grid⟩)

namespace Tree

variable {α : Type}

/-! ## In any kernel -/

/-- The array that a tree evaluates to. -/
def resultOn (K : Kernel α (Grid α)) (t : Tree α) (table : Table α) : Except Fault (Grid α) :=
  t.evaluate K table.columns

/-- The array that a tree evaluates to, stretched to the common shape of the columns if there are
any. The tree is evaluated before the columns are compared. -/
def resultOver (K : Kernel α (Grid α)) (t : Tree α) (table : Table α) : Except Fault (Grid α) := do
  let result ← t.resultOn K table
  table.stretch result

/-- The element that a tree evaluates to under some bindings. -/
def result (K : Kernel α (Grid α)) (t : Tree α) (bindings : Table α) : Except Fault α := do
  let result ← t.resultOn K bindings
  result.toScalar

/-! ## In doubles -/

/-- The array of doubles that a tree evaluates to. -/
def valueOn (t : Tree Float) (samples : Samples) : Except Fault (Grid Float) :=
  t.resultOn Arithmetic.doubles samples.table

/-- The array of doubles that a tree evaluates to, stretched to the common shape of the columns,
which must be within the limits. -/
def valueOver (t : Tree Float) (samples : Samples) : Except Fault (Grid Float) := do
  let result ← t.valueOn samples
  samples.table.checkLimits
  samples.table.stretch result

/-- Within the limits, the value is the result in the kernel of doubles. -/
theorem valueOver_eq_resultOver {t : Tree Float} {samples : Samples}
    (h : samples.table.checkLimits = .ok ()) :
    t.valueOver samples = t.resultOver Arithmetic.doubles samples.table := by
  simp only [valueOver, resultOver, valueOn, h]
  rfl

/-- The double that a tree evaluates to under some bindings. -/
def value (t : Tree Float) (bindings : Samples) : Except Fault Float :=
  t.result Arithmetic.doubles bindings.table

end Tree

end Isolate
