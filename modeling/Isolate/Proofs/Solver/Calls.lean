import Isolate.Proofs.Solver.Cap

/-!
# Single steps and runs in any order

A solver may be driven by hand, by single steps and runs in any order.  Only a run looks at the
limit.  So the steps that are made before the first run go on where a run would have given up, which
is what a higher limit does (`drive_withCap_step`); and the first run ends with a finished solver,
which no later call changes.

* `calls_withCap_eq_drive` - the calls up to the first run are one run with a higher limit;
* `calls_eq_solve` - **stepping and running agree**.
-/

namespace Isolate.Solver

variable {ν : Type} {s : Solver ν}

/-! ## The limit of a run -/

theorem withCap_maxSteps (s : Solver ν) : s.withCap s.maxSteps = s := rfl

/-- No call changes the limit. -/
theorem calls_withCap_maxSteps (s : Solver ν) (each : List Call) :
    (s.calls each).withCap s.maxSteps = s.calls each := by
  have hkeep : (s.calls each).maxSteps = s.maxSteps :=
    keeps_calls (P := fun t => t.maxSteps = s.maxSteps)
      (fun t _ h => (maxSteps_step t).trans h) (fun _ _ h => h) rfl each
  rw [← hkeep, withCap_maxSteps]

theorem isFinished_drive (s : Solver ν) : s.drive.1.isFinished = true := by
  obtain ⟨_, _, _, hfin⟩ := s.drive_eq_turns
  exact hfin

/-- A run gives up at once wherever it has made more steps than it may, however many more. -/
theorem drive_withCap_max (s : Solver ν) :
    s.drive.1.withCap (s.maxSteps.map (max (s.steps : Int)))
      = (s.withCap (s.maxSteps.map (max (s.steps : Int)))).drive.1 := by
  cases hf : s.isFinished with
  | true => rw [drive_withCap_of_finished hf]
  | false =>
    have hsame : s.drive.1.withCap s.maxSteps = (s.withCap s.maxSteps).drive.1 :=
      calls_withCap_maxSteps s [.solve]
    cases hm : s.maxSteps with
    | none => rwa [hm] at hsame
    | some m =>
      rw [Option.map_some]
      by_cases hle : m ≤ s.steps
      · have hc : s.isCapped = true := by simpa [isCapped, hm] using hle
        have hc' : (s.withCap (some (max (s.steps : Int) m))).isCapped = true := by
          rw [isCapped_some]
          exact decide_eq_true (by omega)
        rw [drive_of_capped hf hc,
          drive_of_capped (s := s.withCap (some (max (s.steps : Int) m))) hf hc']
        rfl
      · have hmax : max (s.steps : Int) m = m := by omega
        rw [hmax, ← hm]
        exact hsame

/-- A step before a run is made by the run itself if that may make one more. -/
theorem drive_withCap_step (hf : s.isFinished = false) {cap : Option Int}
    (hcap : ∀ m, cap = some m → s.steps < m) :
    (s.step.1.withCap cap).drive.1 = (s.withCap cap).drive.1 := by
  have hc : (s.withCap cap).isCapped = false := by
    cases cap with
    | none => rfl
    | some m =>
      rw [isCapped_some, decide_eq_false_iff_not, not_le]
      exact hcap m rfl
  rw [drive_of_step (s := s.withCap cap) hf hc, step_withCap]

/-! ## Calls -/

theorem calls_append (s : Solver ν) (each later : List Call) :
    s.calls (each ++ later) = (s.calls each).calls later := List.foldl_append

/-- **The calls up to the first run are one run**, with a limit that lets it make the steps that are
made by hand.  The calls after it change nothing. -/
theorem calls_withCap_eq_drive {each : List Call} (h : .solve ∈ each) (s : Solver ν) :
    let cap := s.maxSteps.map (max ((s.steps + each.idxOf .solve : Nat) : Int))
    (s.calls each).withCap cap = (s.withCap cap).drive.1 := by
  induction each generalizing s with
  | nil => exact absurd h List.not_mem_nil
  | cons c each ih =>
    cases c with
    | solve =>
      have hcalls : s.calls (.solve :: each) = s.drive.1 :=
        calls_of_finished s.isFinished_drive each
      rw [hcalls, List.idxOf_cons_self, Nat.add_zero]
      exact drive_withCap_max s
    | step =>
      have hrest : .solve ∈ each := by simpa using h
      have hidx : (Call.step :: each).idxOf .solve = each.idxOf .solve + 1 :=
        List.idxOf_cons_ne _ (by decide)
      have hcalls : s.calls (.step :: each) = s.step.1.calls each := rfl
      rw [hcalls, hidx]
      cases hf : s.isFinished with
      | true =>
        intro cap
        rw [step_of_finished hf, calls_of_finished hf, drive_withCap_of_finished hf,
          drive_of_finished hf]
      | false =>
        have hone : s.step.1.steps = s.steps + 1 := (step_effect hf).1
        have hsame : s.step.1.steps + each.idxOf .solve = s.steps + (each.idxOf .solve + 1) := by
          omega
        have hrun := ih hrest s.step.1
        rw [maxSteps_step, hsame] at hrun
        refine hrun.trans (drive_withCap_step hf fun m hm => ?_)
        obtain ⟨m', _, rfl⟩ := Option.map_eq_some_iff.1 hm
        omega

/-- **Stepping and running agree.**  After any sequence of single steps and runs with at least one
run in it, the solver is, its limit apart, what a single run makes of a fresh one whose limit is
raised to the number of steps that were called for before the first run; without a limit there is
still none.  So steps within the limit make no difference, and neither does any call after the first
run. -/
theorem calls_eq_solve (lhs rhs : Tree ν) (targets : List String) (maxSteps : Option Int)
    {each : List Call} (h : .solve ∈ each) :
    (let cap := maxSteps.map (max (each.idxOf .solve : Int))
     ((start lhs rhs targets maxSteps).calls each).withCap cap
      = (start lhs rhs targets cap).solve.1) ∧
    ((∀ m, maxSteps = some m → each.idxOf .solve ≤ m) →
      (start lhs rhs targets maxSteps).calls each = (start lhs rhs targets maxSteps).solve.1) ∧
    ∀ later, (start lhs rhs targets maxSteps).calls (each ++ later)
      = (start lhs rhs targets maxSteps).calls each := by
  set s := start lhs rhs targets maxSteps
  have hrun : (s.calls each).withCap (maxSteps.map (max (each.idxOf .solve : Int)))
      = (s.withCap (maxSteps.map (max (each.idxOf .solve : Int)))).drive.1 := by
    have hcalls := calls_withCap_eq_drive h s
    rwa [show s.steps = 0 from rfl, Nat.zero_add] at hcalls
  refine ⟨hrun, fun hle => ?_, fun later => ?_⟩
  · have hmap : maxSteps.map (max (each.idxOf .solve : Int)) = maxSteps := by
      cases maxSteps with
      | none => rfl
      | some m => rw [Option.map_some, max_eq_right (hle m rfl)]
    rw [hmap] at hrun
    exact (calls_withCap_maxSteps s each).symm.trans hrun
  · have hfin : (s.calls each).isFinished = true := by
      rw [← isFinished_withCap, hrun]
      exact isFinished_drive _
    rw [calls_append]
    exact calls_of_finished hfin later

/-- The solver of `1 - 2 * x = y` needs three steps.  With a limit of two it gives up when it is run
at once; with three single steps before it, the run has nothing left to do. -/
theorem calls_nested :
    let s := start Equation.nested.lhs Equation.nested.rhs ["x"] (some 2)
    (Call.solve ∈ [Call.solve] ∧ Call.solve ∈ [Call.step, .step, .step, .solve, .step]) ∧
      ((s.calls [.solve]).solved = false ∧ (s.calls [.solve]).steps = 2) ∧
      (s.calls [.step, .step, .step, .solve, .step]).solved = true ∧
      (s.calls [.step, .step, .step, .solve, .step]).steps = 3 := by
  intro s
  have hone : Call.solve ∈ [Call.solve] := by decide
  have hmany : Call.solve ∈ [Call.step, .step, .step, .solve, .step] := by decide
  have hopen : Equation.nested.lhs.openSites "x" = [⟨.text "x", none, [.sum, .product]⟩] := rfl
  obtain ⟨hiff, hcount⟩ := solve_start_iff Equation.nested.lhs Equation.nested.rhs "x"
  have hsolved := hiff.2 (hopen ▸ ⟨_, rfl, rfl, by simp⟩)
  have hsteps := hcount _ hopen hsolved
  -- as many steps as the run may make at most, or as are made by hand
  have hrun : (s.calls [.solve]).withCap (some 2)
      = (start Equation.nested.lhs Equation.nested.rhs ["x"] (some 2)).solve.1 :=
    (calls_eq_solve Equation.nested.lhs Equation.nested.rhs ["x"] (some 2) hone).1
  have hstepped : (s.calls [.step, .step, .step, .solve, .step]).withCap (some 3)
      = (start Equation.nested.lhs Equation.nested.rhs ["x"] (some 3)).solve.1 :=
    (calls_eq_solve Equation.nested.lhs Equation.nested.rhs ["x"] (some 2) hmany).1
  obtain ⟨hgiveUp, hfin, htwo⟩ :=
    solve_of_lt Equation.nested.lhs Equation.nested.rhs ["x"] (m := 2)
      (by rw [hsteps]; decide) (by rw [hsteps]; decide)
  have hfull := solve_of_le Equation.nested.lhs Equation.nested.rhs ["x"] (m := 3)
    (.inl (by rw [hsteps]; decide))
  rw [hgiveUp] at hrun
  rw [hfull] at hstepped
  refine ⟨⟨hone, hmany⟩, ⟨?_, ?_⟩, ?_, ?_⟩
  · exact (congrArg Solver.solved hrun).trans (isFinished_eq_false.1 hfin).1
  · exact (congrArg Solver.steps hrun).trans htwo
  · exact (congrArg Solver.solved hstepped).trans hsolved
  · exact (congrArg Solver.steps hstepped).trans hsteps

end Isolate.Solver
