import Isolate.Proofs.Solver.Move
import Mathlib.Logic.Function.Iterate

/-!
# Whole runs

A run is a sequence of turns (`turn`): each makes one step, or gives up when no more steps are
allowed.  A solver may also be driven by hand, by single steps and runs in any order (`calls`).

* `drive_eq_turns` - a run is finitely many turns, no more than the left-hand side is deep, and then
  the solver is finished;
* `keeps_turns`, `keeps_calls` - what a step and giving up keep, every run keeps;
* `Invariant` - what is true of every solver on its way, and `invariant_calls`, that it is;
* `contract_calls` - **the contract of a solver**: its flags, its end, its steps, its nodes and its
  termination, after any sequence of calls.
-/

namespace Isolate.Solver

variable {ν : Type}

/-! ## Turns -/

/-- A solver that makes no more steps. -/
def giveUp (s : Solver ν) : Solver ν := { s with solvable := false }

/-- One turn of a run: nothing at the end, else a step unless no more are allowed. -/
def turn (s : Solver ν) : Solver ν :=
  if s.isFinished then s else if s.isCapped then s.giveUp else s.step.1

theorem turn_of_finished {s : Solver ν} (h : s.isFinished = true) : s.turn = s := by
  simp [turn, h]

theorem drive_of_finished {s : Solver ν} (h : s.isFinished = true) : s.drive.1 = s := by
  rw [drive]
  simp [h]

theorem drive_snd_of_finished {s : Solver ν} (h : s.isFinished = true) : s.drive.2 = [] := by
  rw [drive]
  simp [h]

/-- A run is one turn and the rest of the run. -/
theorem drive_eq_drive_turn (s : Solver ν) : s.drive.1 = s.turn.drive.1 := by
  by_cases h : s.isFinished = true
  · rw [turn_of_finished h]
  · by_cases hc : s.isCapped = true
    · have hg : s.giveUp.isFinished = true := by simp [giveUp, isFinished]
      have ht : s.turn = s.giveUp := by simp [turn, h, hc]
      rw [ht, drive_of_finished hg, drive]
      simp [h, hc, giveUp]
    · have ht : s.turn = s.step.1 := by simp [turn, h, hc]
      rw [ht, drive]
      simp [h, hc]

/-- Every turn before the end brings the end closer. -/
theorem remaining_turn {s : Solver ν} (h : s.isFinished = false) :
    s.turn.remaining < s.remaining := by
  by_cases hc : s.isCapped = true
  · have ht : s.turn = s.giveUp := by simp [turn, h, hc]
    have hg : s.giveUp.remaining = 0 := by simp [remaining, giveUp, isFinished]
    have hpos : 0 < s.lhs.depth := s.lhs.depth_pos
    rw [ht, hg]
    simpa [remaining, h] using hpos
  · have ht : s.turn = s.step.1 := by simp [turn, h, hc]
    rw [ht]
    exact remaining_step h

/-- **A run ends.**  It consists of finitely many turns, after which the solver is finished. -/
theorem drive_eq_turns (s : Solver ν) :
    ∃ n ≤ s.remaining, s.drive.1 = turn^[n] s ∧ s.drive.1.isFinished = true := by
  generalize hm : s.remaining = m
  induction m using Nat.strong_induction_on generalizing s with
  | h m ih =>
    by_cases h : s.isFinished = true
    · exact ⟨0, Nat.zero_le _, drive_of_finished h, by rw [drive_of_finished h]; exact h⟩
    · have hlt : s.turn.remaining < m := hm ▸ remaining_turn (by simpa using h)
      obtain ⟨n, hn, heq, hfin⟩ := ih _ hlt s.turn rfl
      refine ⟨n + 1, by omega, ?_, ?_⟩
      · rw [Function.iterate_succ_apply, drive_eq_drive_turn, heq]
      · rw [drive_eq_drive_turn]
        exact hfin

/-- A run ends where its turns first come to an end. -/
theorem drive_of_turns {s : Solver ν} {n : Nat} (h : (turn^[n] s).isFinished = true) :
    s.drive.1 = turn^[n] s := by
  induction n generalizing s with
  | zero => exact drive_of_finished h
  | succ n ih =>
    rw [Function.iterate_succ_apply] at h ⊢
    rw [drive_eq_drive_turn, ih h]

/-! ## Calls -/

/-- The two ways to drive a solver. -/
inductive Call where
  | step
  | solve
deriving Repr, DecidableEq

/-- A solver after one call. -/
def call (s : Solver ν) : Call → Solver ν
  | .step => s.step.1
  | .solve => s.solve.1

/-- A solver after some calls, from the first to the last. -/
def calls (s : Solver ν) (each : List Call) : Solver ν := each.foldl call s

theorem solve_fst (s : Solver ν) : s.solve.1 = s.drive.1 := rfl

/-! ## What a run keeps -/

section Keeps

variable {P : Solver ν → Prop} (hstep : ∀ s, s.isFinished = false → P s → P s.step.1)
  (hgiveUp : ∀ s, s.isFinished = false → P s → P s.giveUp)

include hstep hgiveUp

theorem keeps_turn {s : Solver ν} (h : P s) : P s.turn := by
  unfold turn
  by_cases hf : s.isFinished = true
  · rw [if_pos hf]
    exact h
  · rw [if_neg hf]
    have hf : s.isFinished = false := by simpa using hf
    by_cases hc : s.isCapped = true
    · rw [if_pos hc]
      exact hgiveUp s hf h
    · rw [if_neg hc]
      exact hstep s hf h

/-- What a step and giving up keep, any number of turns keeps. -/
theorem keeps_turns {s : Solver ν} (h : P s) (n : Nat) : P (turn^[n] s) := by
  induction n generalizing s with
  | zero => exact h
  | succ n ih =>
    rw [Function.iterate_succ_apply]
    exact ih (keeps_turn hstep hgiveUp h)

theorem keeps_solve {s : Solver ν} (h : P s) : P s.solve.1 := by
  obtain ⟨n, _, heq, _⟩ := s.drive_eq_turns
  rw [solve_fst, heq]
  exact keeps_turns hstep hgiveUp h n

/-- What a step and giving up keep, any sequence of calls keeps. -/
theorem keeps_calls {s : Solver ν} (h : P s) (each : List Call) : P (s.calls each) := by
  induction each generalizing s with
  | nil => exact h
  | cons c each ih =>
    refine ih ?_
    cases c with
    | step =>
      by_cases hf : s.isFinished = true
      · rw [call, step_of_finished hf]
        exact h
      · exact hstep s (by simpa using hf) h
    | solve => exact keeps_solve hstep hgiveUp h

end Keeps

/-! ## The invariant -/

/-- What is true, on its way, of a solver that started with two sides and some targets. -/
structure Invariant (lhs rhs : Tree ν) (targets : List String) (s : Solver ν) : Prop where
  targets_eq : s.targets = targets
  solvable_of_solved : s.solved = true → s.solvable = true
  target_of_solved : s.solved = true → isTarget targets s.lhs = true
  labels_eq : s.lhs.labels + s.rhs.labels = lhs.labels + rhs.labels
  steps_le : s.steps + s.remaining ≤ lhs.depth

theorem remaining_le_depth (s : Solver ν) : s.remaining ≤ s.lhs.depth := by
  unfold remaining
  split
  · exact Nat.zero_le _
  · exact le_refl _

theorem invariant_start (lhs rhs : Tree ν) (targets : List String) (maxSteps : Option Int) :
    Invariant lhs rhs targets (start lhs rhs targets maxSteps) where
  targets_eq := rfl
  solvable_of_solved _ := rfl
  target_of_solved h := h
  labels_eq := rfl
  steps_le := by
    rw [show (start lhs rhs targets maxSteps).steps = 0 from rfl, Nat.zero_add]
    exact remaining_le_depth _

theorem invariant_giveUp {lhs rhs : Tree ν} {targets : List String} {s : Solver ν}
    (hf : s.isFinished = false) (h : Invariant lhs rhs targets s) :
    Invariant lhs rhs targets s.giveUp := by
  have hs : s.solved = false := (isFinished_eq_false.1 hf).1
  refine ⟨h.targets_eq, fun hs' => ?_, fun hs' => ?_, h.labels_eq, ?_⟩
  · exact absurd hs' (by simp [giveUp, hs])
  · exact absurd hs' (by simp [giveUp, hs])
  · have := h.steps_le
    have hr : s.giveUp.remaining = 0 := by simp [remaining, giveUp, isFinished]
    have hk : s.giveUp.steps = s.steps := rfl
    omega

theorem invariant_step {lhs rhs : Tree ν} {targets : List String} {s : Solver ν}
    (hf : s.isFinished = false) (h : Invariant lhs rhs targets s) :
    Invariant lhs rhs targets s.step.1 := by
  have hs : s.solved = false := (isFinished_eq_false.1 hf).1
  have hsteps : s.step.1.steps + s.step.1.remaining ≤ lhs.depth := by
    have hlt := remaining_step hf
    have hle := h.steps_le
    have hone : s.step.1.steps = s.steps + 1 := by
      rw [step_of_not_finished hf]
      cases s.move <;> rfl
    omega
  rw [step_of_not_finished hf] at hsteps ⊢
  cases hm : s.move with
  | arrived =>
    rw [hm] at hsteps
    refine ⟨h.targets_eq, fun _ => (isFinished_eq_false.1 hf).2, fun _ => ?_, h.labels_eq, hsteps⟩
    exact h.targets_eq ▸ target_of_arrived hm
  | stuck obstacle =>
    rw [hm] at hsteps
    refine ⟨h.targets_eq, fun hs' => ?_, fun hs' => ?_, h.labels_eq, hsteps⟩
    · exact absurd hs' (by simp [after, hs])
    · exact absurd hs' (by simp [after, hs])
  | freed lhs' rhs' =>
    rw [hm] at hsteps
    refine ⟨h.targets_eq, fun hs' => ?_, fun hs' => ?_, ?_, hsteps⟩
    · exact absurd hs' (by simp [after, hs])
    · exact absurd hs' (by simp [after, hs])
    · exact (labels_of_freed hm).trans h.labels_eq

/-- Whatever is called, the invariant holds. -/
theorem invariant_calls (lhs rhs : Tree ν) (targets : List String) (maxSteps : Option Int)
    (each : List Call) : Invariant lhs rhs targets ((start lhs rhs targets maxSteps).calls each) :=
  keeps_calls (fun _ => invariant_step) (fun _ => invariant_giveUp)
    (invariant_start lhs rhs targets maxSteps) each

/-! ## The end -/

/-- Once a solver is finished, no call changes it. -/
theorem calls_of_finished {s : Solver ν} (h : s.isFinished = true) (each : List Call) :
    s.calls each = s := by
  induction each with
  | nil => rfl
  | cons c each ih =>
    have hc : s.call c = s := by
      cases c with
      | step => exact step_of_finished h
      | solve => exact drive_of_finished h
    rw [calls, List.foldl_cons, hc]
    exact ih

/-- A step before the end counts one.  It replaces the left-hand side by one of its children, or
changes neither side and finishes. -/
theorem step_effect {s : Solver ν} (hf : s.isFinished = false) :
    s.step.1.steps = s.steps + 1 ∧
      ((s.step.1.lhs ∈ s.lhs.children ∧ s.step.1.solved = s.solved ∧
          s.step.1.solvable = s.solvable) ∨
        (s.step.1.lhs = s.lhs ∧ s.step.1.rhs = s.rhs ∧ s.step.1.isFinished = true)) := by
  rw [step_of_not_finished hf]
  cases hm : s.move with
  | arrived => exact ⟨rfl, .inr ⟨rfl, rfl, by simp [after, isFinished]⟩⟩
  | stuck obstacle => exact ⟨rfl, .inr ⟨rfl, rfl, by simp [after, isFinished]⟩⟩
  | freed lhs rhs => exact ⟨rfl, .inl ⟨mem_children_of_freed hm, rfl, rfl⟩⟩

/-- **The contract of a solver.**  After any sequence of steps and runs: the flags exclude each
other and a solved solver has a target on the left; a finished solver stays as it is; a step before
the end counts one, and either goes down to a child of the left-hand side or finishes without a
change; the two sides together have the nodes they started with; and a run ends, after no more turns
and in no more steps than the left-hand side was deep. -/
theorem contract_calls (lhs rhs : Tree ν) (targets : List String) (maxSteps : Option Int)
    (each : List Call) :
    let s := (start lhs rhs targets maxSteps).calls each
    (¬(s.solved = true ∧ s.solvable = false) ∧
      (s.solved = true → ∃ name ∈ targets, ∃ stored, s.lhs = .var (.text name) stored)) ∧
    (s.isFinished = true → ∀ later, s.calls later = s) ∧
    (s.isFinished = false →
      s.step.1.steps = s.steps + 1 ∧
        ((s.step.1.lhs ∈ s.lhs.children ∧ s.step.1.solved = s.solved ∧
            s.step.1.solvable = s.solvable) ∨
          (s.step.1.lhs = s.lhs ∧ s.step.1.rhs = s.rhs ∧ s.step.1.isFinished = true))) ∧
    (s.lhs.labels + s.rhs.labels = lhs.labels + rhs.labels ∧
      s.lhs.count + s.rhs.count = lhs.count + rhs.count) ∧
    ((∃ turns ≤ lhs.depth, s.solve.1 = turn^[turns] s) ∧ s.solve.1.isFinished = true ∧
      s.solve.1.steps ≤ lhs.depth) := by
  intro s
  have hinv : Invariant lhs rhs targets s := invariant_calls lhs rhs targets maxSteps each
  have hend : Invariant lhs rhs targets s.solve.1 :=
    keeps_solve (fun _ => invariant_step) (fun _ => invariant_giveUp) hinv
  refine ⟨⟨?_, fun hs => exists_of_isTarget (hinv.target_of_solved hs)⟩, calls_of_finished,
    step_effect, ⟨hinv.labels_eq, ?_⟩, ?_⟩
  · rintro ⟨hs, hn⟩
    exact absurd (hinv.solvable_of_solved hs) (by simp [hn])
  · have := congrArg Multiset.card hinv.labels_eq
    simpa [Tree.card_labels] using this
  · obtain ⟨n, hn, heq, hfin⟩ := s.drive_eq_turns
    have hle := hinv.steps_le
    have hle' := hend.steps_le
    exact ⟨⟨n, by omega, heq⟩, hfin, by omega⟩

end Isolate.Solver
