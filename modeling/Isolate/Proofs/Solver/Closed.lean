import Isolate.Proofs.Evaluation.Stored
import Isolate.Proofs.Solver.Run
import Isolate.Proofs.Solver.Solvable

/-!
# Solutions are closed

The sides of a solver stay built (`IsBuilt`).  Its right-hand side is known from the start, and only
known terms are ever carried over to it, so it stays known (`Closed`).  Hence the right-hand side of
a solution does not mention the variable and has a value as it is, and there is nothing left to do
for a second run.

* `closed_turns` - at every point of a run the right-hand side is known;
* `not_mem_variableNames` - what is known does not mention the variable;
* `solve_closed` - **a solution is closed, and solving it again changes nothing**.
-/

namespace Isolate

variable {ν : Type}

namespace Solver

/-! ## Built sides -/

/-- A solver between two built trees. -/
def IsBuilt (s : Solver ν) : Prop := s.lhs.Built ∧ s.rhs.Built

theorem built_gathered {kind : SeqKind} {rhs : Tree ν} {dependent : Signed (Tree ν)}
    {known : List (Signed (Tree ν))} (hrhs : rhs.Built) (hknown : ∀ t ∈ known, t.item.Built) :
    (gathered kind rhs dependent known).Built := by
  refine Tree.built_seq (List.forall_mem_cons.2 ⟨hrhs, ?_⟩)
  rw [List.forall_mem_map]
  exact hknown

/-- What comes free is built, and so is what is gathered. -/
theorem isBuilt_of_freed {s : Solver ν} (h : s.IsBuilt) {lhs rhs : Tree ν}
    (hm : s.move = .freed lhs rhs) : lhs.Built ∧ rhs.Built := by
  obtain ⟨kind, terms, dependent, hs, hd, rfl, rfl⟩ := exists_of_freed hm
  have hterms : (Tree.seq kind terms).Built := hs ▸ h.1
  have hdependent : dependent ∈ terms :=
    (List.mem_filter.1 (hd ▸ List.mem_singleton_self dependent)).1
  exact ⟨hterms.term hdependent,
    built_gathered h.2 fun t ht => hterms.term (List.mem_filter.1 ht).1⟩

theorem isBuilt_step {s : Solver ν} (hf : s.isFinished = false) (h : s.IsBuilt) :
    s.step.1.IsBuilt := by
  rw [step_of_not_finished hf]
  cases hm : s.move with
  | arrived => exact h
  | stuck obstacle => exact h
  | freed lhs rhs => exact isBuilt_of_freed h hm

theorem isBuilt_solve {s : Solver ν} (h : s.IsBuilt) : s.solve.1.IsBuilt :=
  keeps_solve (fun _ => isBuilt_step) (fun _ _ h => h) h

/-! ## Known right-hand sides -/

/-- A solver for one variable on built sides, of which the right-hand side is known. -/
structure Closed (name : String) (s : Solver ν) : Prop where
  targets_eq : s.targets = [name]
  lhs_built : s.lhs.Built
  rhs_built : s.rhs.Built
  rhs_known : s.rhs.evaluatesConstant [name].contains = true

variable {name : String}

/-- A known right-hand side stays known when known terms are gathered on it. -/
theorem evaluatesConstant_gathered {targets : List String} {kind : SeqKind} {rhs : Tree ν}
    {dependent : Signed (Tree ν)} {known : List (Signed (Tree ν))}
    (hrhs : rhs.evaluatesConstant targets.contains = true)
    (hknown : ∀ t ∈ known, isKnown targets t = true) :
    (gathered kind rhs dependent known).evaluatesConstant targets.contains = true := by
  rw [gathered, Tree.evaluatesConstant, Tree.termsEvaluateConstant_iff, List.forall_mem_cons,
    List.forall_mem_map]
  exact ⟨hrhs, hknown⟩

theorem closed_of_freed {s : Solver ν} {lhs rhs : Tree ν} (h : Closed name s)
    (hm : s.move = .freed lhs rhs) : Closed name (s.after (.freed lhs rhs)) := by
  obtain ⟨hl, hr⟩ := isBuilt_of_freed ⟨h.lhs_built, h.rhs_built⟩ hm
  refine ⟨h.targets_eq, hl, hr, ?_⟩
  obtain ⟨kind, terms, dependent, -, -, rfl, rfl⟩ := exists_of_freed hm
  have hrhs := h.rhs_known
  rw [← h.targets_eq] at hrhs ⊢
  exact evaluatesConstant_gathered hrhs fun t ht => (List.mem_filter.1 ht).2

theorem closed_step {s : Solver ν} (hf : s.isFinished = false) (h : Closed name s) :
    Closed name s.step.1 := by
  rw [step_of_not_finished hf]
  cases hm : s.move with
  | arrived => exact ⟨h.targets_eq, h.lhs_built, h.rhs_built, h.rhs_known⟩
  | stuck obstacle => exact ⟨h.targets_eq, h.lhs_built, h.rhs_built, h.rhs_known⟩
  | freed lhs rhs => exact closed_of_freed h hm

/-- **At every point of a run the right-hand side is known.** -/
theorem closed_turns {s : Solver ν} (h : Closed name s) (n : Nat) : Closed name (turn^[n] s) :=
  keeps_turns (fun _ => closed_step)
    (fun _ _ h => ⟨h.targets_eq, h.lhs_built, h.rhs_built, h.rhs_known⟩) h n

end Solver

/-! ## Names -/

namespace Tree

theorem evaluatesConstant_of_mem_children {listed : String → Bool} {t c : Tree ν}
    (h : t.evaluatesConstant listed = true) (hc : c ∈ t.children) :
    c.evaluatesConstant listed = true := by
  cases t with
  | seq kind terms =>
    obtain ⟨s, hs, rfl⟩ := List.mem_map.1 hc
    exact termsEvaluateConstant_iff.1 h s hs
  | pow base exponent =>
    rw [evaluatesConstant, Bool.and_eq_true] at h
    rcases List.mem_cons.1 hc with rfl | hc
    · exact h.1
    · obtain rfl := List.mem_singleton.1 hc
      exact h.2
  | fn id argument =>
    obtain rfl := List.mem_singleton.1 hc
    exact h
  | _ => exact absurd hc List.not_mem_nil

/-- Every node of a known tree is known. -/
theorem evaluatesConstant_of_mem_preorder {listed : String → Bool} {t c : Tree ν}
    (h : t.evaluatesConstant listed = true) (hc : c ∈ t.preorder) :
    c.evaluatesConstant listed = true := by
  induction t using induction_children with
  | node t ih =>
    rw [preorder_eq] at hc
    rcases List.mem_cons.1 hc with rfl | hc
    · exact h
    · obtain ⟨u, hu, hc⟩ := List.mem_flatMap.1 hc
      exact ih u hu (evaluatesConstant_of_mem_children h hu) hc

/-- What is known does not mention a listed name. -/
theorem not_mem_variableNames {listed : String → Bool} {t : Tree ν} {name : String}
    (h : t.evaluatesConstant listed = true) (hlisted : listed name = true) :
    Name.text name ∉ t.variableNames := by
  intro hmem
  rw [variableNames, List.mem_eraseDups] at hmem
  obtain ⟨c, hc, hname⟩ := List.mem_filterMap.1 hmem
  have hknown := evaluatesConstant_of_mem_preorder h hc
  cases c with
  | var n stored =>
    obtain rfl : n = .text name := Option.some.inj hname
    simp [evaluatesConstant, hlisted] at hknown
  | _ => exact absurd hname (by simp [variableName?])

end Tree

/-! ## Equations -/

namespace Equation

theorem closed_start {e : Equation ν} {name : String} {dependent known : Tree ν}
    (h : Sides e name dependent known) (hl : e.lhs.Built) (hr : e.rhs.Built)
    (maxSteps : Option Int) :
    Solver.Closed name (Solver.start dependent known [name] maxSteps) := by
  obtain ⟨⟨rfl, rfl⟩ | ⟨rfl, rfl⟩, _, hknown⟩ := h
  · exact ⟨rfl, hl, hr, hknown⟩
  · exact ⟨rfl, hr, hl, hknown⟩

/-- With the variable alone on the left and a known right-hand side, there is nothing to do. -/
theorem solve_of_isolated {name : String} (stored : Option ν) {rhs : Tree ν} (hrhs : rhs.Built)
    (hknown : rhs.evaluatesConstant [name].contains = true) (maxSteps : Option Int) :
    ∃ events, solve ⟨.var (.text name) stored, rhs⟩ name maxSteps
      = .ok (⟨some ⟨.var (.text name) stored, rhs⟩, name, true, true, 0⟩, events) := by
  have hsides : Sides ⟨.var (.text name) stored, rhs⟩ name (.var (.text name) stored) rhs :=
    ⟨.inl ⟨rfl, rfl⟩, by simp [isKnownSide, Tree.evaluatesConstant], hknown⟩
  have hsolved : (Solver.start (.var (.text name) stored) rhs [name] maxSteps).solved = true := by
    simp [Solver.start, Solver.isTarget]
  have hend : (Solver.start (.var (.text name) stored) rhs [name] maxSteps).solve.1
      = Solver.start (.var (.text name) stored) rhs [name] maxSteps :=
    Solver.drive_of_finished (by rw [Solver.isFinished, hsolved, Bool.true_or])
  rw [solve_of_sides hsides (.var name stored) hrhs, hend, solutionOf, if_pos hsolved, hsolved]
  exact ⟨_, rfl⟩

/-- **A solution is closed, and solving it again changes nothing.**  At every point of the run that
solving an equation of built sides starts, the right-hand side of the solver is known as long as the
variable is not; and the run comes to the solution.  So if that is solved, the variable stands alone
on its left, does not occur on its right, which has a value without any bindings, and solving it for
the variable once more gives the same equation without a step. -/
theorem solve_closed (e : Equation Float) (hl : e.lhs.Built) (hr : e.rhs.Built) (name : String)
    (maxSteps : Option Int) :
    (∀ s, e.solver? name maxSteps = .ok (some s) →
      (∃ n events, e.solve name maxSteps = .ok (solutionOf name (Solver.turn^[n] s), events)) ∧
      ∀ n, (Solver.turn^[n] s).rhs.evaluatesConstant [name].contains = true) ∧
    ∃ solution events, e.solve name maxSteps = .ok (solution, events) ∧
      (solution.solved = true → ∃ found, solution.equation = some found ∧
        (∃ stored, found.lhs = .var (.text name) stored) ∧
        .text name ∉ found.rhs.variableNames ∧
        (∃ x, found.rhs.value [] = .ok x) ∧
        ∀ cap, ∃ again events', found.solve name cap = .ok (again, events') ∧
          again.solved = true ∧ again.steps = 0 ∧ again.equation = some found) := by
  rcases sides_or_same e name with ⟨dependent, known, h⟩ | h
  · set start := Solver.start dependent known [name] maxSteps with hstart
    have hsolver : e.solver? name maxSteps = .ok (some start) := solver?_of_sides h hl hr maxSteps
    have hsolve := solve_of_sides h hl hr maxSteps
    have hclosed : ∀ n, Solver.Closed name (Solver.turn^[n] start) :=
      Solver.closed_turns (closed_start h hl hr maxSteps)
    obtain ⟨n, -, hn, -⟩ := start.drive_eq_turns
    have hlast : start.solve.1 = Solver.turn^[n] start := hn
    rw [← hstart, hlast] at hsolve
    refine ⟨fun s hs => ?_, _, _, hsolve, fun hsolved => ?_⟩
    · obtain rfl := Option.some.inj (Except.ok.inj (hsolver.symm.trans hs))
      exact ⟨⟨n, _, hsolve⟩, fun m => (hclosed m).rhs_known⟩
    · have hinv : Solver.Invariant dependent known [name] (Solver.turn^[n] start) :=
        Solver.keeps_turns (fun _ => Solver.invariant_step) (fun _ => Solver.invariant_giveUp)
          (Solver.invariant_start ..) n
      obtain ⟨target, htarget, stored, hvar⟩ :=
        Solver.exists_of_isTarget (hinv.target_of_solved hsolved)
      obtain rfl := List.mem_singleton.1 htarget
      have hc := hclosed n
      refine ⟨_, if_pos hsolved, ⟨stored, hvar⟩, ?_, ?_, fun cap => ?_⟩
      · exact Tree.not_mem_variableNames hc.rhs_known (by simp)
      · exact Tree.exists_value_of_constant hc.rhs_built hc.rhs_known
      · obtain ⟨events, hagain⟩ :=
          solve_of_isolated stored hc.rhs_built hc.rhs_known cap
        rw [hvar]
        exact ⟨_, events, hagain, rfl, rfl, rfl⟩
  · refine ⟨fun s hs => ?_, _, _, solve_of_no_side h maxSteps, fun hs => absurd hs (by simp)⟩
    rw [solver?_of_no_side h] at hs
    exact absurd hs (by simp)

/-- The equation `5 = 2 * x - y`, where both variables have a value. -/
def shifted : Equation Float :=
  ⟨.const 5, .seq .sum [⟨.seq .product [⟨.const 2, true⟩, ⟨.var (.text "x") (some 1), true⟩], true⟩,
    ⟨.var (.text "y") (some 3), false⟩]⟩

theorem built_shifted : shifted.lhs.Built ∧ shifted.rhs.Built := by
  refine ⟨.const 5, Tree.built_seq ?_⟩
  simp only [List.forall_mem_cons, List.not_mem_nil, false_imp_iff, implies_true, and_true]
  refine ⟨Tree.built_seq ?_, .var "y" (some 3)⟩
  simp only [List.forall_mem_cons, List.not_mem_nil, false_imp_iff, implies_true, and_true]
  exact ⟨.const 2, .var "x" (some 1)⟩

/-- Although `x` has a value, it is the unknown; what is found for it is closed. -/
theorem solve_shifted :
    (shifted.lhs.Built ∧ shifted.rhs.Built) ∧
      ∃ solution events, shifted.solve "x" none = .ok (solution, events) ∧
        solution.solved = true ∧
        ∃ found, solution.equation = some found ∧ .text "x" ∉ found.rhs.variableNames ∧
          (∃ x, found.rhs.value [] = .ok x) ∧
          ∃ again events', found.solve "x" none = .ok (again, events') ∧ again.solved = true ∧
            again.steps = 0 ∧ again.equation = some found := by
  have hsides : Sides shifted "x" shifted.rhs shifted.lhs :=
    ⟨.inr ⟨rfl, rfl⟩, by decide, by decide⟩
  have hopen : shifted.rhs.openSites "x" = [⟨.text "x", some 1, [.sum, .product]⟩] := by rfl
  have hrun : (Solver.start shifted.rhs shifted.lhs ["x"] none).solve.1.solved = true := by
    rw [(Solver.solve_start_iff shifted.rhs shifted.lhs "x").1, hopen]
    exact ⟨_, rfl, rfl, by simp⟩
  obtain ⟨solution, events, hsolve, hclosed⟩ :=
    (solve_closed shifted built_shifted.1 built_shifted.2 "x" none).2
  have hsolved : solution.solved = true := by
    rw [eq_solutionOf_of_solve hsides built_shifted.1 built_shifted.2 hsolve]
    exact hrun
  obtain ⟨found, hfound, -, hname, hvalue, hagain⟩ := hclosed hsolved
  exact ⟨built_shifted, solution, events, hsolve, hsolved, found, hfound, hname, hvalue,
    hagain none⟩

end Equation

end Isolate
