import Isolate.Grid.Basic

/-!
# Runs of an elementwise operation

An operation on two arrays is carried out in runs: stretches of the result along which each operand
is read at a fixed step. The axes of the result are joined where every array steps through them
evenly. Then the innermost axes are taken together as long as that pays: an operand that does not
step through them evenly has to be copied first, which makes a run dearer, and more axes make a run
longer.

* `Axis`, `Grid.axesOf` - the axes of a result with the steps of the operands;
* `Axis.joined` - evenly stepped axes as one;
* `Axis.longestRun` - the axes that pay best, and who has to be copied for them;
* `Grid.isHeldAgainst` - whether an operand stays at one element throughout every run.
-/

namespace Isolate

/-- An axis of a result: its length, and how far the operands and the result move when the index
along it moves by one. -/
structure Axis where
  length : Nat
  left : Nat
  right : Nat
  result : Nat
deriving Repr, DecidableEq

/-! ## Steps -/

/-- The steps of an array along its axes, last axis first, where the elements of the axes so far
take up some space. An array does not move along an axis of length one. -/
def strides (space : Nat) : List Nat → List Nat
  | [] => []
  | length :: dims => (if length = 1 then 0 else space) :: strides (space * length) dims

/-- The axes of a result with the steps of both operands; an operand does not move along an axis
that it lacks. -/
def axesOf (left right result : List Nat) : List Axis :=
  let step (dims : List Nat) (i : Nat) : Nat := ((strides 1 dims)[i]?).getD 0
  result.mapIdx fun i length =>
    ⟨length, step left i, step right i, step result i⟩

namespace Axis

/-! ## Joining axes -/

/-- Whether going on along the outer axis is the next step along the inner one, for one array. -/
def continues (step : Axis → Nat) (inner outer : Axis) : Bool :=
  step inner * inner.length == step outer

/-- Whether two neighbouring axes are stepped through evenly by all arrays. -/
def isEven (inner outer : Axis) : Bool :=
  continues left inner outer && continues right inner outer && continues result inner outer

/-- The axes after putting one more in front, joined to the first where that is even. -/
def put (inner : Axis) : List Axis → List Axis
  | [] => [inner]
  | outer :: rest =>
    if isEven inner outer then { inner with length := inner.length * outer.length } :: rest
    else inner :: outer :: rest

/-- The axes with every even pair joined; axes of length one are left out. -/
def joined (axes : List Axis) : List Axis :=
  (axes.filter (·.length != 1)).foldr put []

/-! ## Runs -/

/-- A run over the innermost axes: how many elements it has, and which arrays are read evenly all
along it. -/
structure Run where
  size : Nat
  left : Bool
  right : Bool
  result : Bool
deriving Repr, DecidableEq

/-- The price of a run: one, and one more for every array that has to be copied. -/
def Run.cost (r : Run) : Nat :=
  1 + (if r.left then 0 else 1) + (if r.right then 0 else 1) + (if r.result then 0 else 1)

/-- The greatest number of elements that are copied at a time. -/
def copiedAtOnce : Nat := 8192

/-- The run over the innermost axis alone. -/
def Run.along (inner : Axis) : Run := ⟨inner.length, true, true, true⟩

/-- A run lengthened by the axis outside of its outermost axis. -/
def Run.lengthened (r : Run) (last outer : Axis) : Run where
  size := r.size * outer.length
  left := r.left && continues Axis.left last outer
  right := r.right && continues Axis.right last outer
  result := r.result && continues Axis.result last outer

/-- Whether a longer run costs at most as much for each element as the best one so far. -/
def Run.pays (longer best : Run) : Bool :=
  let size := if longer.cost > 1 then min longer.size copiedAtOnce else longer.size
  longer.cost * best.size ≤ best.cost * size

/-- The best run among those over more and more axes. Once there is copying to do, a run that fills
the space for copies is not lengthened. -/
def extend (last : Axis) (current best : Run) : List Axis → Run
  | [] => best
  | outer :: rest =>
    if current.size ≥ copiedAtOnce && current.cost > 1 then best
    else
      let longer := current.lengthened last outer
      extend outer longer (if longer.pays best then longer else best) rest

/-- The run that pays best. -/
def longestRun (inner : Axis) (outer : List Axis) : Run :=
  extend inner (.along inner) (.along inner) outer

end Axis

namespace Grid

variable {α β : Type}

/-- Whether an operand stays at one element throughout every run of an operation with another. A
single number always does. Arrays with the same axes are read side by side; so is an array beside a
single number. Otherwise the operand must stay where it is along the innermost axis and must not be
copied. -/
def isHeldAgainst (g : Grid α) (other : Grid β) : Bool :=
  if g.dims.isEmpty then true
  else if other.dims.isEmpty || g.dims == other.dims then false
  else
    match (broadcast? other.dims g.dims).map fun dims =>
        Axis.joined (axesOf other.dims g.dims dims) with
    | some (inner :: outer) => inner.right == 0 && (Axis.longestRun inner outer).right
    | some [] => true
    | none => false

/-- A single number is held against every array. -/
@[simp] theorem isHeldAgainst_scalar (a : α) (other : Grid β) :
    (scalar a).isHeldAgainst other = true := rfl

/-- An array is not held against one that has the same axes. -/
theorem isHeldAgainst_eq_false {g : Grid α} {other : Grid β} (hd : g.dims = other.dims)
    (hne : g.dims ≠ []) : g.isHeldAgainst other = false := by
  simp [isHeldAgainst, hd, hd ▸ hne]

end Grid

end Isolate
