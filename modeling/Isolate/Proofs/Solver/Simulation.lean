import Isolate.Proofs.Solver.Run

/-!
# Two solvers side by side

A `Simulation` is a relation between solvers that their steps preserve, one step against one step,
and from which both can tell alike whether they are finished and whether they may go on.  Related
solvers then stay related for any number of turns (`Simulation.turns`), and so they do to the end of
their runs (`Simulation.drive`, `Simulation.solve`): the runs take the same number of turns, since
neither can be finished before the other.
-/

namespace Isolate.Solver

variable {ν μ : Type}

/-- A relation between solvers that go through their runs side by side. -/
structure Simulation (S : Solver ν → Solver μ → Prop) : Prop where
  isFinished_eq : ∀ {s s'}, S s s' → s.isFinished = s'.isFinished
  isCapped_eq : ∀ {s s'}, S s s' → s.isCapped = s'.isCapped
  step : ∀ {s s'}, S s s' → s.isFinished = false → s'.isFinished = false → S s.step.1 s'.step.1
  giveUp : ∀ {s s'}, S s s' → S s.giveUp s'.giveUp

namespace Simulation

variable {S : Solver ν → Solver μ → Prop} {s : Solver ν} {s' : Solver μ}

theorem turn (hS : Simulation S) (h : S s s') : S s.turn s'.turn := by
  have hfinished := hS.isFinished_eq h
  have hcapped := hS.isCapped_eq h
  unfold Solver.turn
  rw [← hfinished, ← hcapped]
  by_cases hf : s.isFinished = true
  · rw [if_pos hf, if_pos hf]
    exact h
  · rw [if_neg hf, if_neg hf]
    by_cases hc : s.isCapped = true
    · rw [if_pos hc, if_pos hc]
      exact hS.giveUp h
    · rw [if_neg hc, if_neg hc]
      exact hS.step h (by simpa using hf) (by simpa [← hfinished] using hf)

/-- Related solvers stay related, turn by turn. -/
theorem turns (hS : Simulation S) (h : S s s') (n : Nat) :
    S (Solver.turn^[n] s) (Solver.turn^[n] s') := by
  induction n generalizing s s' with
  | zero => exact h
  | succ n ih =>
    rw [Function.iterate_succ_apply, Function.iterate_succ_apply]
    exact ih (hS.turn h)

/-- **Related solvers end related.** -/
theorem drive (hS : Simulation S) (h : S s s') : S s.drive.1 s'.drive.1 := by
  -- the first solver is finished after some turns, and so is the second then
  obtain ⟨n, -, hlast, hfinished⟩ := s.drive_eq_turns
  have hturns : S (Solver.turn^[n] s) (Solver.turn^[n] s') := hS.turns h n
  rw [hlast, hS.isFinished_eq hturns] at hfinished
  rw [hlast, drive_of_turns hfinished]
  exact hturns

theorem solve (hS : Simulation S) (h : S s s') : S s.solve.1 s'.solve.1 := hS.drive h

end Simulation

end Isolate.Solver
