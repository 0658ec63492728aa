import Isolate.Proofs.Solver.Solvable
import Mathlib.Order.Defs.Unbundled

/-!
# Limits on the number of steps

A limit has no part in a step; it only says when a run gives up.  So a limited run goes along with
the run without a limit until it may go no further (`drive_withCap_of_lt`), and to the same end if
it may make all its steps (`drive_withCap_of_le`).

The limit is looked at before every step, the last one included, which moves nothing any more but
finds the target on the left-hand side.  A run that gives up right before it has isolated the target
and does not know it.

* `stepped` - a solver after some single steps;
* `Along` - what is true of a solver on its way to where it would come without a limit;
* `target_unsolved_iff` - **when a target on the left-hand side is not recognised**;
* `solve_truncated` - **a limit only truncates the run**, for equations.
-/

namespace Isolate

variable {ν : Type}

namespace Solver

variable {s full : Solver ν}

/-- A solver with another limit on its steps. -/
def withCap (cap : Option Int) (s : Solver ν) : Solver ν := { s with maxSteps := cap }

/-- A solver after some single steps. -/
def stepped (s : Solver ν) (n : Nat) : Solver ν := (fun s => s.step.1)^[n] s

theorem stepped_succ (s : Solver ν) (n : Nat) : s.stepped (n + 1) = s.step.1.stepped n :=
  Function.iterate_succ_apply ..

@[simp] theorem isFinished_withCap (cap : Option Int) (s : Solver ν) :
    (s.withCap cap).isFinished = s.isFinished := rfl

/-- A limit has no part in a step. -/
theorem step_withCap (cap : Option Int) (s : Solver ν) :
    (s.withCap cap).step = (s.step.1.withCap cap, s.step.2) := by
  have hmove : (s.withCap cap).move = s.move := rfl
  cases hf : s.isFinished with
  | true => simp [step, hf]
  | false =>
    simp only [step, isFinished_withCap, hf, hmove]
    cases s.move <;> rfl

theorem isCapped_none (hm : s.maxSteps = none) : s.isCapped = false := by
  simp [isCapped, hm]

theorem isCapped_some {m : Int} : (s.withCap (some m)).isCapped = decide (m ≤ s.steps) := rfl

/-! ## Going along with a run without a limit -/

/-- **Induction along the steps**: what is true at the end, and true of a solver if it is true after
its next step, is true of every solver. -/
@[elab_as_elim]
theorem step_induction {motive : Solver ν → Prop}
    (finished : ∀ s, s.isFinished = true → motive s)
    (going : ∀ s, s.isFinished = false → motive s.step.1 → motive s) (s : Solver ν) :
    motive s := by
  generalize hr : s.remaining = r
  induction r using Nat.strong_induction_on generalizing s with
  | h r ih =>
    cases hf : s.isFinished with
    | true => exact finished s hf
    | false => exact going s hf (ih _ (hr ▸ remaining_step hf) _ rfl)

/-- A run that is neither finished nor capped is one step and the rest of the run. -/
theorem drive_of_step (hf : s.isFinished = false) (hc : s.isCapped = false) :
    s.drive = (s.step.1.drive.1, s.step.2 ++ s.step.1.drive.2) := by
  rw [drive]
  simp [hf, hc]

theorem drive_of_capped (hf : s.isFinished = false) (hc : s.isCapped = true) :
    s.drive = (s.giveUp, [.gaveUp s.steps]) := by
  rw [drive]
  simp [hf, hc, giveUp]

theorem drive_withCap_of_finished (hf : s.isFinished = true) (cap : Option Int) :
    (s.withCap cap).drive = (s.drive.1.withCap cap, s.drive.2) := by
  rw [drive_of_finished hf, drive_snd_of_finished hf]
  exact Prod.ext (drive_of_finished (s := s.withCap cap) hf)
    (drive_snd_of_finished (s := s.withCap cap) hf)

/-- Before the end, a run still makes a step. -/
theorem steps_lt_drive (hm : s.maxSteps = none) (hf : s.isFinished = false) :
    s.steps < s.drive.1.steps := by
  have hone := (step_effect hf).1
  have hle := steps_le_solve s.step.1
  rw [drive_eq_drive_step hm hf, ← solve_fst]
  omega

/-- **With enough steps allowed, a limited run is the run without a limit**, and reports the
same. -/
theorem drive_withCap_of_le (hm : s.maxSteps = none) {m : Int} (h : s.drive.1.steps ≤ m) :
    (s.withCap (some m)).drive = (s.drive.1.withCap (some m), s.drive.2) := by
  induction s using step_induction with
  | finished s hf => exact drive_withCap_of_finished hf _
  | going s hf ih =>
    have hlt := steps_lt_drive hm hf
    have hc : (s.withCap (some m)).isCapped = false := by
      rw [isCapped_some, decide_eq_false_iff_not]
      omega
    have hdrive := drive_of_step hf (isCapped_none hm)
    have hrest := ih ((maxSteps_step s).trans hm) (by rw [hdrive] at h; exact h)
    rw [drive_of_step (s := s.withCap (some m)) hf hc, step_withCap, hrest, hdrive]

/-- **With too few steps allowed, a limited run gives up** after as many steps as it may make. -/
theorem drive_withCap_of_lt (hm : s.maxSteps = none) (hf : s.isFinished = false) {m : Int}
    (h : m < s.drive.1.steps) :
    (s.withCap (some m)).drive.1 = (s.stepped (m.toNat - s.steps)).giveUp.withCap (some m) := by
  induction s using step_induction with
  | finished s hfin => exact absurd hfin (by simp [hf])
  | going s _ ih =>
    by_cases hle : m ≤ s.steps
    · have hc : (s.withCap (some m)).isCapped = true := by
        rw [isCapped_some]
        exact decide_eq_true hle
      rw [drive_of_capped (s := s.withCap (some m)) hf hc, show m.toNat - s.steps = 0 by omega]
      rfl
    · have hc : (s.withCap (some m)).isCapped = false := by
        rw [isCapped_some]
        exact decide_eq_false hle
      have hone := (step_effect hf).1
      have hdrive := drive_eq_drive_step hm hf
      -- the step cannot be the last one, since that is allowed
      have hnext : s.step.1.isFinished = false := by
        by_contra hfin
        rw [hdrive, drive_of_finished (by simpa using hfin)] at h
        omega
      have hcount : m.toNat - s.steps = (m.toNat - s.step.1.steps) + 1 := by omega
      rw [drive_of_step (s := s.withCap (some m)) hf hc, step_withCap, hcount, stepped_succ]
      exact ih ((maxSteps_step s).trans hm) hnext (hdrive ▸ h)

/-- Single steps count one by one as long as the run has so many. -/
theorem stepped_of_lt (hm : s.maxSteps = none) {n : Nat} (h : s.steps + n < s.drive.1.steps) :
    (s.stepped n).isFinished = false ∧ (s.stepped n).steps = s.steps + n := by
  induction n generalizing s with
  | zero =>
    refine ⟨?_, rfl⟩
    by_contra hfin
    rw [drive_of_finished (by simpa [stepped] using hfin)] at h
    omega
  | succ n ih =>
    have hf : s.isFinished = false := by
      by_contra hfin
      rw [drive_of_finished (by simpa using hfin)] at h
      omega
    have hone := (step_effect hf).1
    rw [drive_eq_drive_step hm hf] at h
    obtain ⟨hfin, hsteps⟩ := ih (s := s.step.1) ((maxSteps_step s).trans hm) (by omega)
    rw [stepped_succ]
    exact ⟨hfin, by omega⟩

/-! ## Targets on the left-hand side -/

theorem arrived_of_target (h : isTarget s.targets s.lhs = true) : s.move = .arrived := by
  obtain ⟨name, _, stored, hs⟩ := exists_of_isTarget h
  rw [hs] at h
  unfold move
  rw [hs]
  exact if_pos h

/-- **Without a limit, a target on the left-hand side is recognised.** -/
theorem solved_drive_iff_target (hm : s.maxSteps = none) (hf : s.isFinished = false) :
    s.drive.1.solved = true ↔ isTarget s.drive.1.targets s.drive.1.lhs = true := by
  induction s using step_induction with
  | finished s hfin => exact absurd hfin (by simp [hf])
  | going s _ ih =>
    cases hmove : s.move with
    | arrived =>
      have hdrive := drive_eq_after hm hf (by simp [hmove, after, isFinished])
      rw [hdrive, hmove]
      exact ⟨fun _ => target_of_arrived hmove, fun _ => rfl⟩
    | stuck obstacle =>
      have hdrive := drive_eq_after hm hf (by simp [hmove, after, isFinished])
      have hs : s.solved = false := (isFinished_eq_false.1 hf).1
      rw [hdrive, hmove]
      refine ⟨fun h => absurd h (by simp [after, hs]), fun h => ?_⟩
      exact absurd (arrived_of_target (s := s) h) (by simp [hmove])
    | freed lhs rhs =>
      have hnext : s.step.1.isFinished = false := by
        rw [step_of_not_finished hf, hmove]
        exact hf
      rw [drive_eq_drive_step hm hf]
      exact ih ((maxSteps_step s).trans hm) hnext

/-- Before the end, a target stands on the left-hand side exactly if the run is one step from being
solved. -/
theorem isTarget_iff_last_step (hm : s.maxSteps = none) (hf : s.isFinished = false) :
    isTarget s.targets s.lhs = true ↔
      s.drive.1.solved = true ∧ s.steps + 1 = s.drive.1.steps := by
  have hone := (step_effect hf).1
  constructor
  · intro htarget
    have hmove := arrived_of_target htarget
    have hdrive := drive_eq_after hm hf (by simp [hmove, after, isFinished])
    rw [hdrive, hmove]
    exact ⟨rfl, rfl⟩
  · rintro ⟨hsolved, hsteps⟩
    rw [drive_eq_drive_step hm hf] at hsolved hsteps
    -- another step would be one too many
    have hfin : s.step.1.isFinished = true := by
      by_contra hnext
      have := steps_lt_drive ((maxSteps_step s).trans hm) (by simpa using hnext)
      omega
    rw [drive_of_finished hfin, step_of_not_finished hf] at hsolved
    cases hmove : s.move with
    | arrived => exact target_of_arrived hmove
    | stuck obstacle =>
      rw [hmove] at hsolved
      exact absurd hsolved (by simp [after, (isFinished_eq_false.1 hf).1])
    | freed lhs rhs =>
      rw [hmove] at hsolved
      exact absurd hsolved (by simp [after, (isFinished_eq_false.1 hf).1])

/-! ## Solvers on their way -/

/-- A solver on its way to `full`, which it would come to without a limit: it still would, or it has
given up where it still would have. -/
inductive Along (full : Solver ν) : Solver ν → Prop
  | going {s : Solver ν} : (s.withCap none).drive.1 = full → Along full s
  | gaveUp {s : Solver ν} :
      s.isFinished = false → (s.withCap none).drive.1 = full → Along full s.giveUp

theorem Along.drive_eq (h : Along full s) (hf : s.isFinished = false) :
    (s.withCap none).drive.1 = full := by
  cases h with
  | going h => exact h
  | gaveUp _ _ => exact absurd hf (by simp [giveUp, isFinished])

theorem along_step (hf : s.isFinished = false) (h : Along full s) : Along full s.step.1 := by
  refine .going ?_
  rw [← h.drive_eq hf, drive_eq_drive_step (s := s.withCap none) rfl hf, step_withCap]

theorem along_giveUp (hf : s.isFinished = false) (h : Along full s) : Along full s.giveUp :=
  .gaveUp hf (h.drive_eq hf)

/-- What a finished solver says, compared with what it would come to without a limit. -/
theorem Along.verdict (h : Along full s) (hfin : s.isFinished = true)
    (hfull : full.solved = true ↔ isTarget full.targets full.lhs = true) :
    (s.solved = true → isTarget s.targets s.lhs = true) ∧
      (isTarget s.targets s.lhs = true ∧ s.solved = false ↔
        full.solved = true ∧ s.steps + 1 = full.steps) := by
  cases h with
  | going h =>
    rw [drive_of_finished (s := s.withCap none) hfin] at h
    subst h
    refine ⟨hfull.1, fun ⟨ht, hs⟩ => ?_, fun ⟨_, hsteps⟩ => ?_⟩
    · exact absurd (hfull.2 ht) (by simp [withCap, hs])
    · exact absurd hsteps (by simp [withCap])
  | @gaveUp t hf h =>
    have hs : t.giveUp.solved = false := (isFinished_eq_false.1 hf).1
    refine ⟨fun h => absurd h (by simp [hs]), ?_⟩
    rw [← h, and_iff_left hs]
    exact isTarget_iff_last_step (s := t.withCap none) rfl hf

/-! ## From the start -/

section Start

variable (lhs rhs : Tree ν) (targets : List String)

theorem invariant_solve (maxSteps : Option Int) (each : List Call) :
    Invariant lhs rhs targets ((start lhs rhs targets maxSteps).calls each).solve.1 :=
  keeps_solve (fun _ => invariant_step) (fun _ => invariant_giveUp)
    (invariant_calls lhs rhs targets maxSteps each)

/-- Whatever is called, a solver is on its way to where it would come without a limit. -/
theorem along_solve (maxSteps : Option Int) (each : List Call) :
    Along (start lhs rhs targets none).solve.1
      ((start lhs rhs targets maxSteps).calls each).solve.1 := by
  have hstart : Along (start lhs rhs targets none).solve.1 (start lhs rhs targets maxSteps) :=
    .going rfl
  exact keeps_solve (fun _ => along_step) (fun _ => along_giveUp)
    (keeps_calls (fun _ => along_step) (fun _ => along_giveUp) hstart each)

/-- A run without a limit recognises a target. -/
theorem solved_full_iff_target :
    (start lhs rhs targets none).solve.1.solved = true ↔
      isTarget (start lhs rhs targets none).solve.1.targets
        (start lhs rhs targets none).solve.1.lhs = true := by
  cases hf : (start lhs rhs targets none).isFinished with
  | true =>
    rw [solve_fst, drive_of_finished hf]
    rfl
  | false => exact solved_drive_iff_target rfl hf

/-- The last step of a run is not its first, if it finds a target: the target would have been found
at the start. -/
theorem steps_full_ne_one (h : (start lhs rhs targets none).solve.1.solved = true) :
    (start lhs rhs targets none).solve.1.steps ≠ 1 := by
  intro hone
  rw [solve_fst] at h hone
  cases hf : (start lhs rhs targets none).isFinished with
  | true =>
    rw [drive_of_finished hf] at hone
    exact absurd hone (by simp [start])
  | false =>
    have htarget := (isTarget_iff_last_step rfl hf).2 ⟨h, hone.symm⟩
    exact absurd (isFinished_start.symm.trans hf)
      (by simpa using show isTarget targets lhs = true from htarget)

theorem isFinished_of_steps_eq_zero (h : (start lhs rhs targets none).solve.1.steps = 0) :
    (start lhs rhs targets none).isFinished = true := by
  by_contra hf
  have hpos := steps_lt_drive (s := start lhs rhs targets none) rfl (by simpa using hf)
  rw [← solve_fst] at hpos
  omega

/-- A run that is finished within its limit, or at the start, does not notice it. -/
theorem solve_of_le {m : Int} (h : (start lhs rhs targets none).solve.1.steps ≤ m ∨
      (start lhs rhs targets none).solve.1.steps = 0) :
    (start lhs rhs targets (some m)).solve
      = ((start lhs rhs targets none).solve.1.withCap (some m),
        (start lhs rhs targets none).solve.2) := by
  set s := start lhs rhs targets none
  have hdrive : (s.withCap (some m)).drive = (s.drive.1.withCap (some m), s.drive.2) := by
    rcases h with hle | hzero
    · exact drive_withCap_of_le rfl hle
    · exact drive_withCap_of_finished (isFinished_of_steps_eq_zero lhs rhs targets hzero) _
  rw [show start lhs rhs targets (some m) = s.withCap (some m) from rfl, solve, solve, hdrive]
  rfl

/-- A run with a lower limit gives up where the run without one is after as many steps. -/
theorem solve_of_lt {m : Int} (h : m < (start lhs rhs targets none).solve.1.steps)
    (hpos : (start lhs rhs targets none).solve.1.steps ≠ 0) :
    (start lhs rhs targets (some m)).solve.1
        = ((start lhs rhs targets none).stepped m.toNat).giveUp.withCap (some m) ∧
      ((start lhs rhs targets none).stepped m.toNat).isFinished = false ∧
      ((start lhs rhs targets none).stepped m.toNat).steps = m.toNat := by
  set s := start lhs rhs targets none
  have hf : s.isFinished = false := by
    by_contra hfin
    rw [solve_fst, drive_of_finished (by simpa using hfin)] at hpos
    exact hpos rfl
  have hzero : s.steps = 0 := rfl
  have hstepped := stepped_of_lt (s := s) (n := m.toNat) rfl (by rw [← solve_fst]; omega)
  refine ⟨?_, hstepped.1, by omega⟩
  have hdrive := drive_withCap_of_lt rfl hf h
  rwa [hzero, Nat.sub_zero] at hdrive

/-- How many steps a limited run makes. -/
theorem steps_solve_capped (m : Int) :
    (start lhs rhs targets (some m)).solve.1.steps
      = min (start lhs rhs targets none).solve.1.steps m.toNat := by
  by_cases h : (start lhs rhs targets none).solve.1.steps ≤ m ∨
      (start lhs rhs targets none).solve.1.steps = 0
  · rw [solve_of_le lhs rhs targets h]
    simp only [withCap]
    omega
  · rw [not_or, not_le] at h
    obtain ⟨hend, -, hsteps⟩ := solve_of_lt lhs rhs targets h.1 h.2
    rw [hend]
    simp only [withCap, giveUp]
    omega

variable {lhs rhs targets}

/-- A run that would be solved stops one step before exactly if it is limited so. -/
theorem one_short_iff {maxSteps : Option Int}
    (h : (start lhs rhs targets none).solve.1.solved = true) :
    (start lhs rhs targets maxSteps).solve.1.steps + 1
        = (start lhs rhs targets none).solve.1.steps ↔
      0 < (start lhs rhs targets none).solve.1.steps ∧
        maxSteps = some (((start lhs rhs targets none).solve.1.steps : Int) - 1) := by
  cases maxSteps with
  | none => simp
  | some m =>
    have hone := steps_full_ne_one lhs rhs targets h
    rw [steps_solve_capped, Option.some.injEq]
    omega

end Start

/-- **When a target on the left-hand side is not recognised.**  After any calls, a solver that a run
ends solved has a target on its left-hand side; it has a target there without being solved exactly
if it stopped one step before a run without a limit would have been solved.  So a run from the start
says that it is solved exactly if a target stands on its left-hand side, unless it would be solved
without a limit, in at least one step, and is limited to one step less. -/
theorem target_unsolved_iff (lhs rhs : Tree ν) (targets : List String) (maxSteps : Option Int) :
    let full := (start lhs rhs targets none).solve.1
    (∀ each : List Call,
      let last := ((start lhs rhs targets maxSteps).calls each).solve.1
      (last.solved = true → isTarget targets last.lhs = true) ∧
        (isTarget targets last.lhs = true ∧ last.solved = false ↔
          full.solved = true ∧ last.steps + 1 = full.steps)) ∧
    (let last := (start lhs rhs targets maxSteps).solve.1
     (last.solved = true ↔ isTarget targets last.lhs = true) ↔
       ¬(full.solved = true ∧ 0 < full.steps ∧ maxSteps = some ((full.steps : Int) - 1))) := by
  intro full
  have hcalls : ∀ each : List Call,
      let last := ((start lhs rhs targets maxSteps).calls each).solve.1
      (last.solved = true → isTarget targets last.lhs = true) ∧
        (isTarget targets last.lhs = true ∧ last.solved = false ↔
          full.solved = true ∧ last.steps + 1 = full.steps) := by
    intro each last
    obtain ⟨_, _, _, hfin⟩ := ((start lhs rhs targets maxSteps).calls each).drive_eq_turns
    have hverdict := (along_solve lhs rhs targets maxSteps each).verdict hfin
      (solved_full_iff_target lhs rhs targets)
    rwa [(invariant_solve lhs rhs targets maxSteps each).targets_eq] at hverdict
  refine ⟨hcalls, ?_⟩
  intro last
  obtain ⟨hsolved, hunsolved⟩ := hcalls []
  have hshort : (full.solved = true ∧ 0 < full.steps ∧
      maxSteps = some ((full.steps : Int) - 1)) ↔
        isTarget targets last.lhs = true ∧ last.solved = false :=
    (and_congr_right fun h => (one_short_iff h).symm).trans hunsolved.symm
  rw [hshort]
  refine ⟨fun h ⟨ht, hs⟩ => ?_, fun h => ⟨hsolved, fun ht => ?_⟩⟩
  · exact absurd (h.2 ht) (by simp [hs])
  · by_contra hs
    exact h ⟨ht, by simpa using hs⟩

/-- The sum `x + 1`. -/
def successor : Tree Int :=
  .seq .sum [⟨.var (.text "x") none, true⟩, ⟨.const 1, true⟩]

theorem built_successor : successor.Built := by
  refine Tree.built_seq ?_
  simp only [List.forall_mem_cons, List.not_mem_nil, false_imp_iff, implies_true, and_true]
  exact ⟨.var "x" none, .const 1⟩

/-- A run may isolate its target and still call the equation unsolvable: of `x + 1 = 3`, one step
leaves `x = 3 - 1`, and a second one, which is not allowed, would find the target there. -/
theorem not_solved_iff_target :
    ¬∀ (lhs rhs : Tree Int) (targets : List String) (maxSteps : Option Int),
      lhs.Built → rhs.Built →
        ((start lhs rhs targets maxSteps).solve.1.solved = true ↔
          isTarget targets (start lhs rhs targets maxSteps).solve.1.lhs = true) := by
  intro h
  have hiff := h successor (.const 3) ["x"] (some 1) built_successor (.const 3)
  have hend : (start successor (.const 3) ["x"] (some 1)).solve.1
      = (start successor (.const 3) ["x"] (some 1)).turn.turn := by
    rw [solve_fst, drive_eq_drive_turn, drive_eq_drive_turn, drive_of_finished rfl]
  rw [hend] at hiff
  exact absurd (hiff.2 rfl) (by decide)

end Solver

/-! ## Equations -/

namespace Equation

/-- Whether an equation is solved for a variable within a limit. -/
def SolvedWithin (e : Equation ν) (name : String) (cap : Option Int) : Prop :=
  ∃ solution events, e.solve name cap = .ok (solution, events) ∧ solution.solved = true

section Limited

variable {e : Equation ν} {name : String} {dependent known : Tree ν} {m : Int}

/-- A limit that is high enough makes no difference. -/
theorem solve_capped_of_le (h : Sides e name dependent known) (hl : e.lhs.Built)
    (hr : e.rhs.Built) (hm : (Solver.start dependent known [name] none).solve.1.steps ≤ m ∨
      (Solver.start dependent known [name] none).solve.1.steps = 0) :
    e.solve name (some m) = e.solve name none := by
  rw [solve_of_sides h hl hr, solve_of_sides h hl hr,
    Solver.solve_of_le dependent known [name] hm]
  rfl

/-- With a lower limit, the equation is given up. -/
theorem solve_capped_of_lt (h : Sides e name dependent known) (hl : e.lhs.Built)
    (hr : e.rhs.Built) (hm : m < (Solver.start dependent known [name] none).solve.1.steps)
    (hpos : (Solver.start dependent known [name] none).solve.1.steps ≠ 0) :
    ∃ events, e.solve name (some m) = .ok (⟨none, name, false, false, m.toNat⟩, events) := by
  obtain ⟨hend, hfin, hsteps⟩ := Solver.solve_of_lt dependent known [name] hm hpos
  have hsolved := (Solver.isFinished_eq_false.1 hfin).1
  have hsolution : solutionOf name (Solver.start dependent known [name] (some m)).solve.1
      = ⟨none, name, false, false, m.toNat⟩ := by
    rw [hend]
    simp [solutionOf, Solver.withCap, Solver.giveUp, hsolved, hsteps]
  rw [solve_of_sides h hl hr, hsolution]
  exact ⟨_, rfl⟩

/-- If limits tell apart what is solved and what is not by one number of steps, a higher limit
solves no less. -/
theorem isUpperSet_solvedWithin {full : Solution ν} {events : List (Event ν)}
    (hsame : ∀ m : Int, full.steps ≤ m ∨ full.steps = 0 →
      e.solve name (some m) = .ok (full, events))
    (hless : ∀ m : Int, m < full.steps → full.steps ≠ 0 →
      ∃ events', e.solve name (some m) = .ok (⟨none, name, false, false, m.toNat⟩, events')) :
    IsUpperSet {m : Int | e.SolvedWithin name (some m)} := by
  rintro m m' hle ⟨solution, events', hsolve, hsolved⟩
  by_cases h : full.steps ≤ m ∨ full.steps = 0
  · rw [hsame m h] at hsolve
    obtain ⟨rfl, -⟩ := Prod.mk.inj (Except.ok.inj hsolve)
    exact ⟨_, _, hsame m' (h.imp_left fun h => h.trans hle), hsolved⟩
  · rw [not_or, not_le] at h
    obtain ⟨_, hfail⟩ := hless m h.1 h.2
    rw [hfail] at hsolve
    obtain ⟨rfl, -⟩ := Prod.mk.inj (Except.ok.inj hsolve)
    exact absurd hsolved (by simp)

end Limited

/-- **A limit only truncates the run.**  An equation of built sides is solved for a variable in some
number of steps if there is no limit.  With a limit of at least so many steps, or if no step is
needed, the solution is the same, and the same is reported.  With a lower limit, the equation is
neither solved nor solvable, there is no solution, and the solver has made as many steps as it may,
none if the limit is negative; its sides are those of the solver without a limit after as many
steps.  Hence what is solved within a limit is solved within every higher one. -/
theorem solve_truncated (e : Equation ν) (hl : e.lhs.Built) (hr : e.rhs.Built) (name : String) :
    ∃ full events, e.solve name none = .ok (full, events) ∧
      (∀ m : Int, full.steps ≤ m ∨ full.steps = 0 →
        e.solve name (some m) = .ok (full, events)) ∧
      (∀ m : Int, m < full.steps → full.steps ≠ 0 →
        (∃ events', e.solve name (some m)
          = .ok (⟨none, name, false, false, m.toNat⟩, events')) ∧
        ∃ s s', e.solver? name none = .ok (some s) ∧ e.solver? name (some m) = .ok (some s') ∧
          s'.solve.1.lhs = (s.stepped m.toNat).lhs ∧ s'.solve.1.rhs = (s.stepped m.toNat).rhs ∧
          (s.stepped m.toNat).steps = m.toNat) ∧
      IsUpperSet {m : Int | e.SolvedWithin name (some m)} := by
  rcases sides_or_same e name with ⟨dependent, known, h⟩ | h
  · have hfull := solve_of_sides h hl hr none
    refine ⟨_, _, hfull, fun m hm => (solve_capped_of_le h hl hr hm).trans hfull,
      fun m hm hpos => ⟨solve_capped_of_lt h hl hr hm hpos, ?_⟩,
      isUpperSet_solvedWithin (fun m hm => (solve_capped_of_le h hl hr hm).trans hfull)
        fun m hm hpos => solve_capped_of_lt h hl hr hm hpos⟩
    obtain ⟨hend, -, hsteps⟩ := Solver.solve_of_lt dependent known [name] hm hpos
    refine ⟨_, _, solver?_of_sides h hl hr none, solver?_of_sides h hl hr (some m), ?_, ?_, hsteps⟩
    · rw [hend]
      rfl
    · rw [hend]
      rfl
  · exact ⟨_, _, solve_of_no_side h none, fun m _ => solve_of_no_side h (some m),
      fun m _ hpos => absurd rfl hpos,
      isUpperSet_solvedWithin (fun m _ => solve_of_no_side h (some m))
        fun m _ hpos => absurd rfl hpos⟩

/-- Of `1 - 2 * x = y`, the three steps to the solution are enough, two are not, and a negative
limit allows none. -/
theorem solve_nested_capped :
    (nested.lhs.Built ∧ nested.rhs.Built) ∧
      ∃ full events, nested.solve "x" none = .ok (full, events) ∧ full.solved = true ∧
        nested.solve "x" (some 3) = .ok (full, events) ∧
        (∃ events', nested.solve "x" (some 2) = .ok (⟨none, "x", false, false, 2⟩, events')) ∧
        ∃ events', nested.solve "x" (some (-1)) = .ok (⟨none, "x", false, false, 0⟩, events') := by
  have hsides : Sides nested "x" nested.lhs nested.rhs := ⟨.inl ⟨rfl, rfl⟩, by decide, by decide⟩
  have hopen : nested.lhs.openSites "x" = [⟨.text "x", none, [.sum, .product]⟩] := by rfl
  obtain ⟨hiff, hsteps⟩ := Solver.solve_start_iff nested.lhs nested.rhs "x"
  have hsolved := hiff.2 (hopen ▸ ⟨_, rfl, rfl, by simp⟩)
  obtain ⟨full, events, hfull, hsame, hless, -⟩ :=
    solve_truncated nested built_nested.1 built_nested.2 "x"
  have hsolution :
      full = solutionOf "x" (Solver.start nested.lhs nested.rhs ["x"] none).solve.1 :=
    eq_solutionOf_of_solve hsides built_nested.1 built_nested.2 hfull
  have hthree : full.steps = 3 := by
    rw [hsolution]
    exact hsteps _ hopen hsolved
  refine ⟨built_nested, full, events, hfull, ?_, hsame 3 (by omega), ?_, ?_⟩
  · rw [hsolution]
    exact hsolved
  · exact (hless 2 (by omega) (by omega)).1
  · exact (hless (-1) (by omega) (by omega)).1

end Equation

end Isolate
