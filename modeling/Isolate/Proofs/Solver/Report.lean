import Isolate.Proofs.Distinct
import Isolate.Proofs.Rendering.Built
import Isolate.Proofs.Solver.Cap
import Isolate.Proofs.Solver.Closed
import Isolate.Solver.Trace

/-!
# What a run reports

A run from built sides reports nothing that cannot be written.  Its messages make up a `Trace`: for
every step an entry, then a warning if it gave up, then the outcome.  What these are is said in terms
of the single steps of the solver (`StepWritten`, `EndWritten`, `OutcomeWritten`).

* `exists_step_written` - what one step reports;
* `exists_trace` - **what a run reports is its trace**;
* `Solver.solveWith_eq`, `Equation.solveWith_eq` - a run that logs as it goes ends like one that
  does not, and has then logged what that one reports.
-/

namespace Isolate

open Log (Message)

/-! ## Messages -/

theorem Event.messages_append (events more : List (Event Float)) :
    messages (events ++ more)
      = messages events >>= fun first => messages more >>= fun rest => .ok (first ++ rest) :=
  List.mapM_append

theorem Event.messages_singleton {event : Event Float} {m : Message}
    (h : event.message = .ok m) : messages [event] = .ok [m] := by
  rw [messages, List.mapM_cons, h]
  rfl

theorem Equation.text_eq {lhs rhs : Tree Float} {l r : String} (hl : lhs.text = .ok l)
    (hr : rhs.text = .ok r) : (Equation.mk lhs rhs).text = .ok (l ++ " = " ++ r) := by
  rw [Equation.text, Tree.written_of_text hl, Tree.written_of_text hr]
  rfl

namespace Solver

/-! ## One step -/

/-- What is written of a step from one solver to the next, where some steps have been made before:
the two sides after it.  If it fails, it says first after how many steps it did, and why. -/
inductive StepWritten (before next : Solver Float) (made : Nat) : List Message → Prop
  | done {l r : String} :
      next.solvable = true → next.lhs.text = .ok l → next.rhs.text = .ok r →
        StepWritten before next made
          [.debug ("Step " ++ Nat.repr (made + 1) ++ ": " ++ (l ++ " = " ++ r))]
  | failed {obstacle : Obstacle} {reason l r : String} :
      next.solvable = false → before.move = .stuck obstacle → obstacle.text = .ok reason →
      next.lhs.text = .ok l → next.rhs.text = .ok r →
        StepWritten before next made
          [.debug ("Unsolvable at step " ++ Nat.repr made ++ ": " ++ reason),
            .debug ("Step " ++ Nat.repr (made + 1) ++ ": " ++ (l ++ " = " ++ r))]

/-- What a built left-hand side is stuck at has a name. -/
theorem exists_text_of_stuck {s : Solver Float} (h : s.lhs.Built) {obstacle : Obstacle}
    (hm : s.move = .stuck obstacle) : ∃ reason, obstacle.text = .ok reason := by
  unfold move at hm
  cases hs : s.lhs with
  | var name stored =>
    rw [hs] at hm
    dsimp only at hm
    split at hm
    · exact absurd hm (by simp)
    · obtain rfl := Move.stuck.inj hm
      exact ⟨_, rfl⟩
  | seq kind terms =>
    rw [hs] at hm
    simp only [moveTerms] at hm
    split at hm
    · obtain rfl := Move.stuck.inj hm
      exact ⟨_, rfl⟩
    · exact absurd hm (by simp)
    · obtain rfl := Move.stuck.inj hm
      exact ⟨_, rfl⟩
  | fn id argument =>
    rw [hs] at hm h
    obtain rfl := Move.stuck.inj hm
    obtain ⟨f, hf⟩ := h.coded
    exact ⟨_, by rw [Obstacle.text, hf, ok_bind]⟩
  | foreign found =>
    rw [hs] at h
    exact h.parts.elim
  | _ =>
    rw [hs] at hm
    obtain rfl := Move.stuck.inj hm
    exact ⟨_, rfl⟩

/-- **What one step reports.**  It is written in full, whatever kind of step it is. -/
theorem exists_step_written {s : Solver Float} (hf : s.isFinished = false) (h : s.IsBuilt) :
    ∃ entry, Event.messages s.step.2 = .ok entry ∧ StepWritten s s.step.1 s.steps entry := by
  obtain ⟨hnl, hnr⟩ := isBuilt_step hf h
  obtain ⟨l, hl⟩ := Tree.exists_text hnl
  obtain ⟨r, hr⟩ := Tree.exists_text hnr
  have hsteps : s.step.1.steps = s.steps + 1 := (step_effect hf).1
  have hstepped : (Event.stepped s.step.1.steps s.step.1.lhs s.step.1.rhs).message
      = .ok (.debug ("Step " ++ Nat.repr (s.steps + 1) ++ ": " ++ (l ++ " = " ++ r))) := by
    rw [Event.message, Equation.text_eq hl hr, ok_bind, hsteps]
  have hreport : s.step.2
      = s.report s.move ++ [.stepped s.step.1.steps s.step.1.lhs s.step.1.rhs] := by
    simp [step, hf]
  rw [hreport, Event.messages_append, Event.messages_singleton hstepped]
  have hsolvable : s.solvable = true := (isFinished_eq_false.1 hf).2
  cases hm : s.move with
  | stuck obstacle =>
    obtain ⟨reason, hreason⟩ := exists_text_of_stuck h.1 hm
    have hnext : s.step.1.solvable = false := by rw [step_of_not_finished hf, hm]; rfl
    have hstuck : (Event.stuck s.steps obstacle : Event Float).message
        = .ok (.debug ("Unsolvable at step " ++ Nat.repr s.steps ++ ": " ++ reason)) := by
      rw [Event.message, hreason, ok_bind]
    refine ⟨_, ?_, .failed hnext hm hreason hl hr⟩
    rw [report, Event.messages_singleton hstuck]
    rfl
  | arrived =>
    have hnext : s.step.1.solvable = true := by rw [step_of_not_finished hf, hm]; exact hsolvable
    exact ⟨_, rfl, .done hnext hl hr⟩
  | freed lhs rhs =>
    have hnext : s.step.1.solvable = true := by rw [step_of_not_finished hf, hm]; exact hsolvable
    exact ⟨_, rfl, .done hnext hl hr⟩

/-! ## A whole run -/

/-- How a run ends after some steps, and what is written of it: nothing if it is finished then, and
a warning if it gives up because it may make no more. -/
inductive EndWritten (s : Solver Float) (made : Nat) : List Message → Prop
  | finished :
      (s.stepped made).isFinished = true → s.solve.1 = s.stepped made → EndWritten s made []
  | gaveUp {cap : Int} :
      (s.stepped made).isFinished = false → s.maxSteps = some cap →
      cap ≤ Int.ofNat (s.steps + made) → s.solve.1 = (s.stepped made).giveUp →
        EndWritten s made [.warning ("Giving up after " ++ Nat.repr (s.steps + made) ++ " steps")]

/-- What is written of a run before its outcome: an entry for every step, and the warnings. -/
structure RunWritten (s : Solver Float) (entries : List (List Message)) (warnings : List Message) :
    Prop where
  length_eq : s.steps + entries.length = s.solve.1.steps
  entry : ∀ k written, entries[k]? = some written →
    StepWritten (s.stepped k) (s.stepped (k + 1)) (s.steps + k) written
  warnings : EndWritten s entries.length warnings

variable {s : Solver Float} {entries : List (List Message)} {warnings : List Message}

theorem runWritten_of_finished (hf : s.isFinished = true) : RunWritten s [] [] := by
  have hdrive : s.solve.1 = s := drive_of_finished hf
  refine ⟨?_, fun k written hk => absurd hk (by simp), .finished hf hdrive⟩
  rw [hdrive]
  rfl

theorem runWritten_of_capped (hf : s.isFinished = false) (hc : s.isCapped = true) :
    RunWritten s [] [.warning ("Giving up after " ++ Nat.repr s.steps ++ " steps")] := by
  have hdrive : s.solve.1 = s.giveUp := by rw [solve_fst, drive_of_capped hf hc]
  obtain ⟨cap, hcap, hle⟩ := (Option.any_eq_true ..).1 hc
  refine ⟨?_, fun k written hk => absurd hk (by simp), .gaveUp hf hcap ?_ hdrive⟩
  · rw [hdrive]
    rfl
  · exact of_decide_eq_true hle

/-- A run begins with the entry of its first step. -/
theorem RunWritten.cons {first : List Message} (hf : s.isFinished = false)
    (hc : s.isCapped = false) (hfirst : StepWritten s s.step.1 s.steps first)
    (hrest : RunWritten s.step.1 entries warnings) :
    RunWritten s (first :: entries) warnings := by
  have hdrive : s.solve.1 = s.step.1.solve.1 := by
    rw [solve_fst, drive_of_step hf hc, solve_fst]
  have hone : s.step.1.steps = s.steps + 1 := (step_effect hf).1
  have hcount : ∀ k, s.steps + (k + 1) = s.step.1.steps + k := fun k => by omega
  refine ⟨?_, fun k written hk => ?_, ?_⟩
  · rw [hdrive, ← hrest.length_eq, List.length_cons, hcount]
  · cases k with
    | zero =>
      obtain rfl : first = written := by simpa using hk
      exact hfirst
    | succ k =>
      rw [stepped_succ, stepped_succ, hcount]
      exact hrest.entry k written (by simpa using hk)
  · cases hrest.warnings with
    | finished hfin hlast =>
      refine .finished ?_ ?_
      · rw [List.length_cons, stepped_succ]
        exact hfin
      · rw [List.length_cons, stepped_succ, hdrive]
        exact hlast
    | gaveUp hgoing hcap hle hlast =>
      rw [← hcount]
      refine .gaveUp ?_ ((maxSteps_step s).symm.trans hcap) ?_ ?_
      · rw [List.length_cons, stepped_succ]
        exact hgoing
      · rw [List.length_cons, hcount]
        exact hle
      · rw [List.length_cons, stepped_succ, hdrive]
        exact hlast

/-- **What a run reports before its outcome.** -/
theorem exists_run_written (h : s.IsBuilt) :
    ∃ entries warnings, RunWritten s entries warnings ∧
      Event.messages s.drive.2 = .ok (entries.flatten ++ warnings) := by
  induction s using step_induction with
  | finished s hf =>
    refine ⟨[], [], runWritten_of_finished hf, ?_⟩
    rw [drive_snd_of_finished hf]
    rfl
  | going s hf ih =>
    cases hc : s.isCapped with
    | true =>
      refine ⟨[], _, runWritten_of_capped hf hc, ?_⟩
      rw [drive_of_capped hf hc]
      rfl
    | false =>
      obtain ⟨first, hmessages, hfirst⟩ := exists_step_written hf h
      obtain ⟨entries, warnings, hrest, hothers⟩ := ih (isBuilt_step hf h)
      refine ⟨first :: entries, warnings, hrest.cons hf hc hfirst, ?_⟩
      rw [drive_of_step hf hc, Event.messages_append, hmessages, hothers, List.flatten_cons,
        List.append_assoc]
      rfl

/-! ## The trace of a run -/

/-- The last word on a run.  The names of the targets are in order, each once. -/
inductive OutcomeWritten (targets : List String) (last : Solver Float) : Message → Prop
  | solved {l r : String} :
      last.solved = true → last.lhs.text = .ok l → last.rhs.text = .ok r →
        OutcomeWritten targets last (.info .detailed ("Solved: " ++ (l ++ " = " ++ r)))
  | notIsolated {names : List String} :
      last.solved = false → names.Pairwise (· < ·) → (∀ name, name ∈ names ↔ name ∈ targets) →
        OutcomeWritten targets last (.info .detailed
          ("No isolation possible for [" ++ ", ".intercalate (names.map Text.quoted) ++ "]"))

theorem exists_outcome_written (h : s.IsBuilt) :
    ∃ m, s.verdict.message = .ok m ∧ OutcomeWritten s.targets s m := by
  rw [verdict]
  cases hs : s.solved with
  | true =>
    obtain ⟨l, hl⟩ := Tree.exists_text h.1
    obtain ⟨r, hr⟩ := Tree.exists_text h.2
    refine ⟨_, ?_, .solved hs hl hr⟩
    rw [if_pos rfl, Event.message, Equation.text_eq hl hr, ok_bind]
  | false => exact ⟨_, rfl, .notIsolated hs (sortedOnce_pairwise _) fun _ => mem_sortedOnce⟩

/-- The messages of a run: an entry for every step, the warnings, and the outcome. -/
structure Trace where
  entries : List (List Message)
  warnings : List Message
  outcome : Message

/-- All messages, in order. -/
def Trace.messages (t : Trace) : List Message := t.entries.flatten ++ (t.warnings ++ [t.outcome])

/-- The messages that the run of a solver should leave. -/
structure Trace.IsOf (t : Trace) (s : Solver Float) : Prop where
  run : RunWritten s t.entries t.warnings
  outcome : OutcomeWritten s.targets s.solve.1 t.outcome

theorem targets_solve {ν : Type} (s : Solver ν) : s.solve.1.targets = s.targets :=
  keeps_solve (P := fun t => t.targets = s.targets) (fun t _ h => (targets_step t).trans h)
    (fun _ _ h => h) rfl

/-- **What a run reports is its trace.** -/
theorem exists_trace (h : s.IsBuilt) :
    ∃ t : Trace, t.IsOf s ∧ Event.messages s.solve.2 = .ok t.messages := by
  obtain ⟨entries, warnings, hrun, hmessages⟩ := exists_run_written h
  obtain ⟨outcome, hverdict, houtcome⟩ := exists_outcome_written (isBuilt_solve h)
  rw [targets_solve] at houtcome
  refine ⟨⟨entries, warnings, outcome⟩, ⟨hrun, houtcome⟩, ?_⟩
  have hsolve : s.solve.2 = s.drive.2 ++ [s.solve.1.verdict] := rfl
  rw [hsolve, Event.messages_append, hmessages, Event.messages_singleton hverdict, ok_bind,
    ok_bind, List.append_assoc]
  rfl

/-! ## Runs that log as they go -/

section Logging

variable {σ : Type} (log : σ → Message → σ)

theorem driveWith_eq (s : Solver Float) (held : σ) :
    s.driveWith log held
      = (Event.messages s.drive.2).map fun messages => (s.drive.1, messages.foldl log held) := by
  induction s using step_induction generalizing held with
  | finished s hf =>
    rw [driveWith, dif_pos hf, drive_of_finished hf, drive_snd_of_finished hf]
    rfl
  | going s hf ih =>
    rw [driveWith, dif_neg (by simp [hf])]
    cases hc : s.isCapped with
    | true =>
      rw [drive_of_capped hf hc]
      rfl
    | false =>
      rw [drive_of_step hf hc, Event.messages_append]
      cases hstep : Event.messages s.step.2 with
      | error fault => rfl
      | ok first =>
        rw [if_neg (by simp), ok_bind, ok_bind, ih]
        cases Event.messages s.step.1.drive.2 with
        | error fault => rfl
        | ok rest => simp [Except.map]

/-- **A log does not affect a run.**  A run that logs as it goes ends like one that does not, and
what it has logged then is what that one reports, in the same order. -/
theorem solveWith_eq (s : Solver Float) (held : σ) :
    s.solveWith log held
      = (Event.messages s.solve.2).map fun messages => (s.solve.1, messages.foldl log held) := by
  have hsolve : s.solve.2 = s.drive.2 ++ [s.drive.1.verdict] := rfl
  rw [solveWith, driveWith_eq, hsolve, Event.messages_append, solve_fst]
  cases Event.messages s.drive.2 with
  | error fault => rfl
  | ok first =>
    cases hverdict : s.drive.1.verdict.message with
    | error fault => simp [Except.map, hverdict, Event.messages]
    | ok m => simp [Except.map, hverdict, Event.messages]

end Logging

end Solver

/-- A log does not affect what an equation is solved to. -/
theorem Equation.solveWith_eq {σ : Type} (log : σ → Message → σ) (e : Equation Float)
    (name : String) (maxSteps : Option Int) (held : σ) :
    e.solveWith log name maxSteps held
      = e.solve name maxSteps >>= fun r =>
          (Event.messages r.2).map fun messages => (r.1, messages.foldl log held) := by
  rw [solveWith, solve]
  cases e.solver? name maxSteps with
  | error fault => rfl
  | ok found =>
    cases found with
    | none => rfl
    | some s =>
      show (s.solveWith log held >>= fun r => .ok (solutionOf name r.1, r.2))
        = (Event.messages s.solve.2).map fun messages =>
          (solutionOf name s.solve.1, messages.foldl log held)
      rw [Solver.solveWith_eq]
      cases Event.messages s.solve.2 <;> rfl

end Isolate
