import Isolate.Solver.Basic
import Isolate.Tree.Latex
import Isolate.Valuation

/-!
# Equations

An `Equation` is an ordered pair of formulas. `Equation.solve` isolates a variable: if exactly one
side depends on it, a solver runs on copies of the two sides, with that side on the left; if
neither or both do, there is nothing to solve. The residual and the test of an equation compare the
values of the two sides.
-/

namespace Isolate

/-- Two formulas that are equal in value. -/
structure Equation (ν : Type) where
  lhs : Tree ν
  rhs : Tree ν

/-- The outcome of solving an equation for a variable. -/
structure Solution (ν : Type) where
  /-- The equation with the variable isolated, if there is one. -/
  equation : Option (Equation ν)
  name : String
  solved : Bool
  solvable : Bool
  steps : Nat

namespace Equation

variable {ν : Type}

/-- The equation of two formulas; a plain value is no side. -/
def ofSides (lhs rhs : Tree ν) : Except Fault (Equation ν) :=
  match lhs, rhs with
  | .foreign _, _ => .error .notSides
  | _, .foreign _ => .error .notSides
  | lhs, rhs => .ok ⟨lhs, rhs⟩

/-- An equation after assigning to a variable, on the left-hand side first. -/
def assign (e : Equation ν) (name : String) (value : Except Fault ν) :
    Equation ν × Option Fault :=
  match e.lhs.assign name value with
  | (lhs, some fault) => (⟨lhs, e.rhs⟩, some fault)
  | (lhs, none) =>
    let (rhs, fault) := e.rhs.assign name value
    (⟨lhs, rhs⟩, fault)

/-- A copy of an equation. -/
def clone (e : Equation ν) : Except Fault (Equation ν) := do
  let lhs ← e.lhs.clone
  let rhs ← e.rhs.clone
  .ok ⟨lhs, rhs⟩

/-! ## Solving -/

/-- What a finished solver has found. -/
def solutionOf (name : String) (s : Solver ν) : Solution ν :=
  ⟨if s.solved then some ⟨s.lhs, s.rhs⟩ else none, name, s.solved, s.solvable, s.steps⟩

/-- The solver that takes a side with the variable apart, on copies of that side and of the
other. -/
def solverOn (dependent known : Tree ν) (name : String) (maxSteps : Option Int) :
    Except Fault (Solver ν) := do
  let lhs ← dependent.clone
  let rhs ← known.clone
  .ok (Solver.start lhs rhs [name] maxSteps)

/-- Whether a side has a known value as long as a variable is unknown. -/
def isKnownSide (name : String) (side : Tree ν) : Bool := side.evaluatesConstant [name].contains

/-- The solver that isolates a variable, if exactly one side depends on it. -/
def solver? (e : Equation ν) (name : String) (maxSteps : Option Int) :
    Except Fault (Option (Solver ν)) :=
  match isKnownSide name e.lhs, isKnownSide name e.rhs with
  | false, true => (solverOn e.lhs e.rhs name maxSteps).map some
  | true, false => (solverOn e.rhs e.lhs name maxSteps).map some
  | _, _ => .ok none

/-- The equation solved for a variable, with the events of the run. -/
def solve (e : Equation ν) (name : String) (maxSteps : Option Int) :
    Except Fault (Solution ν × List (Event ν)) := do
  match ← e.solver? name maxSteps with
  | some s =>
    let (last, events) := s.solve
    .ok (solutionOf name last, events)
  | none => .ok (⟨none, name, false, false, 0⟩, [.noSide name (!isKnownSide name e.lhs)])

/-! ## Text -/

/-- An equation as text. -/
def text (e : Equation Float) : Except Fault String := do
  let lhs ← e.lhs.written
  let rhs ← e.rhs.written
  .ok (lhs.shown ++ " = " ++ rhs.shown)

/-- An equation as LaTeX. -/
def latex (e : Equation Float) : Except Fault String := do
  let lhs ← e.lhs.writtenLatex
  let rhs ← e.rhs.writtenLatex
  .ok (lhs.shown ++ " = " ++ rhs.shown)

/-- The word for an equation around its quoted text. -/
def described (e : Equation Float) : Except Fault String := do
  let s ← e.text
  .ok ("Equation(" ++ Text.quoted s ++ ")")

/-! ## Values -/

/-- The values of the two sides. -/
def values (e : Equation Float) (bindings : Samples) : Except Fault (Float × Float) := do
  let l ← e.lhs.value bindings
  let r ← e.rhs.value bindings
  .ok (l, r)

/-- The difference between the two sides. -/
def residual (e : Equation Float) (bindings : Samples) : Except Fault Float :=
  (e.values bindings).map fun (l, r) => l - r

/-- Whether two numbers are close: equal, or apart by no more than an absolute tolerance and a
tolerance relative to the second, which must be finite. -/
def isClose (l r relative absolute : Float) : Bool :=
  ((l - r).abs <= absolute + relative * r.abs && Binary64.isFinite r) || l == r

/-- The relative tolerance that is used unless another is given. -/
def defaultRelative : Grid Float := .scalar 1e-9

/-- The absolute tolerance that is used unless another is given. -/
def defaultAbsolute : Grid Float := .scalar 1e-12

/-- Whether the two sides are close in value. The tolerances are read after the sides; they may be
arrays, provided that they leave a single answer. -/
def isSatisfied (e : Equation Float) (bindings : Samples)
    (relative absolute : Except Fault (Grid Float)) : Except Fault Bool := do
  let (l, r) ← e.values bindings
  let relative ← relative
  let absolute ← absolute
  let close ← Grid.zipWith (isClose l r) relative absolute
  match close.toNested.leaves with
  | [answer] => .ok answer
  | _ => .error .ambiguous

end Equation

end Isolate
