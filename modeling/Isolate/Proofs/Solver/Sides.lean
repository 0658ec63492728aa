import Isolate.Proofs.Tree.Built
import Isolate.Solver.Equation

/-!
# The sides that a solver starts with

An equation is solved for a variable by a solver that takes the one side apart that depends on the
variable.  `Sides` says which side that is.  On built sides, which are copied exactly, it decides
everything: with such a side the solver starts on the sides themselves (`solve_of_sides`), and
without one no solver starts (`solve_of_no_side`).
-/

namespace Isolate.Equation

variable {ν : Type}

/-- One side of an equation depends on a variable, and the other is known. -/
structure Sides (e : Equation ν) (name : String) (dependent known : Tree ν) : Prop where
  sides : (dependent = e.lhs ∧ known = e.rhs) ∨ (dependent = e.rhs ∧ known = e.lhs)
  dependent_eq : isKnownSide name dependent = false
  known_eq : isKnownSide name known = true

variable {e : Equation ν} {name : String} {dependent known : Tree ν}

/-- Either exactly one side depends on a variable, or both or neither do. -/
theorem sides_or_same (e : Equation ν) (name : String) :
    (∃ dependent known, Sides e name dependent known) ∨
      isKnownSide name e.lhs = isKnownSide name e.rhs := by
  cases hl : isKnownSide name e.lhs with
  | false =>
    cases hr : isKnownSide name e.rhs with
    | false => exact .inr rfl
    | true => exact .inl ⟨e.lhs, e.rhs, .inl ⟨rfl, rfl⟩, hl, hr⟩
  | true =>
    cases hr : isKnownSide name e.rhs with
    | false => exact .inl ⟨e.rhs, e.lhs, .inr ⟨rfl, rfl⟩, hr, hl⟩
    | true => exact .inr rfl

/-- No more than one side depends on the variable, and the other one is known. -/
theorem Sides.unique (h : Sides e name dependent known) {dependent' known' : Tree ν}
    (h' : Sides e name dependent' known') : dependent' = dependent ∧ known' = known := by
  obtain ⟨hsides, hd, hk⟩ := h
  obtain ⟨hsides', hd', hk'⟩ := h'
  rcases hsides with ⟨rfl, rfl⟩ | ⟨rfl, rfl⟩ <;> rcases hsides' with ⟨rfl, rfl⟩ | ⟨rfl, rfl⟩
  · exact ⟨rfl, rfl⟩
  · exact absurd (hd'.symm.trans hk) (by simp)
  · exact absurd (hd'.symm.trans hk) (by simp)
  · exact ⟨rfl, rfl⟩

theorem Sides.ne (h : Sides e name dependent known) :
    isKnownSide name e.lhs ≠ isKnownSide name e.rhs := by
  obtain ⟨⟨rfl, rfl⟩ | ⟨rfl, rfl⟩, hd, hk⟩ := h <;> simp [hd, hk]

theorem solverOn_of_built (hd : dependent.Built) (hk : known.Built) (name : String)
    (maxSteps : Option Int) :
    solverOn dependent known name maxSteps
      = .ok (Solver.start dependent known [name] maxSteps) := by
  rw [solverOn, Tree.clone_of_built hd, Tree.clone_of_built hk]
  rfl

/-- The solver takes the side apart that depends on the variable. -/
theorem solver?_eq_of_sides (h : Sides e name dependent known) (maxSteps : Option Int) :
    e.solver? name maxSteps = (solverOn dependent known name maxSteps).map some := by
  obtain ⟨⟨rfl, rfl⟩ | ⟨rfl, rfl⟩, hd, hk⟩ := h <;> simp only [solver?, hd, hk]

/-- On built sides, it starts on these sides themselves. -/
theorem solver?_of_sides (h : Sides e name dependent known) (hl : e.lhs.Built) (hr : e.rhs.Built)
    (maxSteps : Option Int) :
    e.solver? name maxSteps = .ok (some (Solver.start dependent known [name] maxSteps)) := by
  rw [solver?_eq_of_sides h]
  obtain ⟨rfl, rfl⟩ | ⟨rfl, rfl⟩ := h.sides
  · rw [solverOn_of_built hl hr]
    rfl
  · rw [solverOn_of_built hr hl]
    rfl

/-- The solution is what that solver finds. -/
theorem solve_of_sides (h : Sides e name dependent known) (hl : e.lhs.Built) (hr : e.rhs.Built)
    (maxSteps : Option Int) :
    e.solve name maxSteps
      = .ok (solutionOf name (Solver.start dependent known [name] maxSteps).solve.1,
        (Solver.start dependent known [name] maxSteps).solve.2) := by
  rw [solve, solver?_of_sides h hl hr]
  rfl

/-- A solution is where the run of that solver ends. -/
theorem eq_solutionOf_of_solve (h : Sides e name dependent known) (hl : e.lhs.Built)
    (hr : e.rhs.Built) {maxSteps : Option Int} {solution : Solution ν} {events : List (Event ν)}
    (hsolve : e.solve name maxSteps = .ok (solution, events)) :
    solution = solutionOf name (Solver.start dependent known [name] maxSteps).solve.1 := by
  rw [solve_of_sides h hl hr] at hsolve
  exact (Prod.mk.inj (Except.ok.inj hsolve)).1.symm

/-- If both sides depend on the variable, or neither, no solver starts. -/
theorem solver?_of_no_side (h : isKnownSide name e.lhs = isKnownSide name e.rhs)
    (maxSteps : Option Int) : e.solver? name maxSteps = .ok none := by
  unfold solver?
  rw [h]
  cases isKnownSide name e.rhs <;> rfl

/-- Then there is nothing to solve. -/
theorem solve_of_no_side (h : isKnownSide name e.lhs = isKnownSide name e.rhs)
    (maxSteps : Option Int) :
    e.solve name maxSteps
      = .ok (⟨none, name, false, false, 0⟩, [.noSide name (!isKnownSide name e.lhs)]) := by
  rw [solve, solver?_of_no_side h]
  rfl

end Isolate.Equation
