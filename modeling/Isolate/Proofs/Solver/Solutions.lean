import Isolate.Proofs.Evaluation.Exact
import Isolate.Proofs.Solver.Run
import Isolate.Proofs.Solver.Sides
import Mathlib.Algebra.BigOperators.Ring.List

/-!
# Solving keeps the solutions

In exact arithmetic, an assignment under which the sides of an equation and the sides of the solver
have a value solves the one exactly if it solves the other, at every point of a run.

The heart is `eq_iff_eq_gathered`: moving the other terms of a sum or product across turns the
equation for the whole sequence into one for the dependent term.  For products this needs the values
on both sides: they say that no moved factor is zero, and neither is the old right-hand side if the
dependent term divides.  Along a run the values in between need not be assumed: the left-hand side
goes down to a part of itself, and the right-hand side only grows (`Faithful`).

* `faithful_turns` - every point of a run is faithful to the start;
* `solve_solutions` - **solving neither loses nor invents solutions**.
-/

namespace Isolate

variable {ν : Type} {R : Reading ν} {ρ : String → ℚ}

/-! ## Carried terms -/

namespace Solver

theorem addend_carried (f : Tree ν → ℚ) (dependent t : Signed (Tree ν)) :
    ((carried dependent t).map f).addend
      = if dependent.positive then -(t.map f).addend else (t.map f).addend := by
  obtain ⟨u, positive⟩ := t
  cases hd : dependent.positive <;> cases positive <;>
    simp [carried, hd, Signed.map, Signed.addend]

theorem factor_carried (f : Tree ν → ℚ) (dependent t : Signed (Tree ν)) :
    ((carried dependent t).map f).factor
      = if dependent.positive then (t.map f).factor⁻¹ else (t.map f).factor := by
  obtain ⟨u, positive⟩ := t
  cases hd : dependent.positive <;> cases positive <;>
    simp [carried, hd, Signed.map, Signed.factor]

/-- Carried terms add up to the opposite if the dependent term is added, and to the same if it is
subtracted. -/
theorem sum_carried (f : Tree ν → ℚ) (dependent : Signed (Tree ν))
    (known : List (Signed (Tree ν))) :
    ((known.map (carried dependent)).map fun t => (t.map f).addend).sum
      = if dependent.positive then -(known.map fun t => (t.map f).addend).sum
        else (known.map fun t => (t.map f).addend).sum := by
  rw [List.map_map]
  simp only [Function.comp_def, addend_carried]
  cases dependent.positive with
  | true => rw [if_pos rfl, List.sum_neg, List.map_map]; rfl
  | false => rfl

/-- Carried factors multiply to the reciprocal if the dependent term is a factor, and to the same if
it divides. -/
theorem prod_carried (f : Tree ν → ℚ) (dependent : Signed (Tree ν))
    (known : List (Signed (Tree ν))) :
    ((known.map (carried dependent)).map fun t => (t.map f).factor).prod
      = if dependent.positive then (known.map fun t => (t.map f).factor).prod⁻¹
        else (known.map fun t => (t.map f).factor).prod := by
  rw [List.map_map]
  simp only [Function.comp_def, factor_carried]
  cases dependent.positive with
  | true => rw [if_pos rfl, List.prod_inv, List.map_map]; rfl
  | false => rfl

/-- A term that can be put into a product both as it is and carried by a factor is not zero. -/
theorem factor_ne_zero {f : Tree ν → ℚ} {dependent t : Signed (Tree ν)}
    (hd : dependent.positive = true) (h : (t.map f).HasFactor)
    (hc : ((carried dependent t).map f).HasFactor) : (t.map f).factor ≠ 0 := by
  obtain ⟨u, positive⟩ := t
  cases positive with
  | true =>
    have hu : f u ≠ 0 := hc (by simp [carried, hd, Signed.map])
    simpa [Signed.factor, Signed.map] using hu
  | false =>
    have hu : f u ≠ 0 := h rfl
    simpa [Signed.factor, Signed.map] using hu

section Gathered

variable {dependent : Signed (Tree ν)} {known : List (Signed (Tree ν))} {rhs : Tree ν}
  {l r d g : ℚ}

theorem sum_eq_iff_eq_gathered
    (hl : (Tree.seq .sum (dependent :: known)).exactValue? R ρ = some l)
    (hr : rhs.exactValue? R ρ = some r) (hd : dependent.item.exactValue? R ρ = some d)
    (hg : (gathered .sum rhs dependent known).exactValue? R ρ = some g) : l = r ↔ d = g := by
  obtain ⟨item, positive⟩ := dependent
  have hd' : item.exactValue R ρ = d := Tree.exactValue_eq hd
  have hr' : rhs.exactValue R ρ = r := Tree.exactValue_eq hr
  rw [Tree.exactValue?_sum] at hl
  rw [gathered, Tree.exactValue?_sum] at hg
  obtain ⟨-, rfl⟩ := hl
  obtain ⟨-, rfl⟩ := hg
  rw [List.map_cons, List.sum_cons, List.map_cons, List.sum_cons, sum_carried]
  generalize (known.map fun t => (t.map (Tree.exactValue R ρ)).addend).sum = S
  cases positive with
  | true =>
    simp only [Signed.map, Signed.addend, hd', hr', if_true]
    rw [← sub_eq_add_neg, eq_sub_iff_add_eq]
  | false =>
    simp only [Signed.map, Signed.addend, hd', hr', Bool.false_eq_true, if_false]
    rw [neg_add_eq_iff_eq_add, eq_neg_add_iff_add_eq, eq_comm, add_comm]

theorem product_eq_iff_eq_gathered
    (hl : (Tree.seq .product (dependent :: known)).exactValue? R ρ = some l)
    (hr : rhs.exactValue? R ρ = some r) (hd : dependent.item.exactValue? R ρ = some d)
    (hg : (gathered .product rhs dependent known).exactValue? R ρ = some g) : l = r ↔ d = g := by
  obtain ⟨item, positive⟩ := dependent
  have hd' : item.exactValue R ρ = d := Tree.exactValue_eq hd
  have hr' : rhs.exactValue R ρ = r := Tree.exactValue_eq hr
  rw [Tree.exactValue?_product] at hl
  rw [gathered, Tree.exactValue?_product] at hg
  obtain ⟨-, hlf, rfl⟩ := hl
  obtain ⟨-, hgf, rfl⟩ := hg
  rw [List.map_cons, List.prod_cons, List.map_cons, List.prod_cons, prod_carried]
  -- the values on both sides say that no carried factor is zero
  have hP : positive = true →
      (known.map fun t => (t.map (Tree.exactValue R ρ)).factor).prod ≠ 0 := by
    rintro rfl hzero
    obtain ⟨t, ht, hzero⟩ := List.mem_map.1 (List.prod_eq_zero_iff.1 hzero)
    exact factor_ne_zero rfl (hlf t (List.mem_cons_of_mem _ ht))
      (hgf _ (List.mem_cons_of_mem _ (List.mem_map_of_mem ht))) hzero
  generalize (known.map fun t => (t.map (Tree.exactValue R ρ)).factor).prod = P at hP
  cases positive with
  | true =>
    simp only [Signed.map, Signed.factor, hd', hr', if_true]
    rw [eq_mul_inv_iff_mul_eq₀ (hP rfl)]
  | false =>
    -- the dependent term divides on the left, and the old right-hand side on the right
    have hd0 : d ≠ 0 := hd' ▸ hlf _ (List.mem_cons_self ..) rfl
    have hr0 : r ≠ 0 := hr' ▸ hgf _ (List.mem_cons_self ..) rfl
    simp only [Signed.map, Signed.factor, hd', hr', Bool.false_eq_true, if_false]
    rw [inv_mul_eq_iff_eq_mul₀ hd0, eq_inv_mul_iff_mul_eq₀ hr0, eq_comm, mul_comm]

/-- **One move.**  The equation for a sequence is the equation for its dependent term, once the
other terms are gathered on the right-hand side. -/
theorem eq_iff_eq_gathered {kind : SeqKind}
    (hl : (Tree.seq kind (dependent :: known)).exactValue? R ρ = some l)
    (hr : rhs.exactValue? R ρ = some r) (hd : dependent.item.exactValue? R ρ = some d)
    (hg : (gathered kind rhs dependent known).exactValue? R ρ = some g) : l = r ↔ d = g := by
  cases kind with
  | sum => exact sum_eq_iff_eq_gathered hl hr hd hg
  | product => exact product_eq_iff_eq_gathered hl hr hd hg

end Gathered

/-! ## Runs -/

/-- A solver says the same as two sides: wherever all four sides have a value.  The other parts
carry this along a run: the left-hand side keeps its value, and so does what is inside the
right-hand side. -/
structure Faithful (R : Reading ν) (ρ : String → ℚ) (lhs rhs : Tree ν) (s : Solver ν) : Prop where
  lhs_defined : (∃ l, lhs.exactValue? R ρ = some l) → ∃ l, s.lhs.exactValue? R ρ = some l
  rhs_defined : (∃ r, s.rhs.exactValue? R ρ = some r) → ∃ r, rhs.exactValue? R ρ = some r
  eq_iff_eq : ∀ {l r l' r' : ℚ}, lhs.exactValue? R ρ = some l → rhs.exactValue? R ρ = some r →
    s.lhs.exactValue? R ρ = some l' → s.rhs.exactValue? R ρ = some r' → (l = r ↔ l' = r')

theorem faithful_refl (s : Solver ν) : Faithful R ρ s.lhs s.rhs s where
  lhs_defined := id
  rhs_defined := id
  eq_iff_eq hl hr hl' hr' := by
    rw [Option.some.inj (hl.symm.trans hl'), Option.some.inj (hr.symm.trans hr')]

/-- A move is faithful. -/
theorem faithful_of_freed {s : Solver ν} {lhs rhs : Tree ν} (h : s.move = .freed lhs rhs) :
    Faithful R ρ s.lhs s.rhs (s.after (.freed lhs rhs)) := by
  obtain ⟨kind, terms, dependent, hs, hd, rfl, rfl⟩ := exists_of_freed h
  have hperm : s.lhs.exactValue? R ρ
      = (Tree.seq kind (dependent :: terms.filter (isKnown s.targets))).exactValue? R ρ := by
    rw [hs, Tree.exactValue?_perm (terms_perm hd)]
  refine ⟨?_, ?_, ?_⟩
  · rintro ⟨l, hl⟩
    exact Tree.exists_exactValue_of_mem (hperm ▸ hl) (List.mem_cons_self ..)
  · rintro ⟨r, hr⟩
    exact Tree.exists_exactValue_of_mem hr (t := ⟨s.rhs, dependent.positive⟩)
      (List.mem_cons_self ..)
  · intro l r d g hl hr hd' hg
    exact eq_iff_eq_gathered (hperm ▸ hl) hr hd' hg

theorem faithful_trans {lhs rhs : Tree ν} {s s' : Solver ν} (h : Faithful R ρ lhs rhs s)
    (h' : Faithful R ρ s.lhs s.rhs s') : Faithful R ρ lhs rhs s' where
  lhs_defined hl := h'.lhs_defined (h.lhs_defined hl)
  rhs_defined hr := h.rhs_defined (h'.rhs_defined hr)
  eq_iff_eq := by
    intro l r l' r' hl hr hl' hr'
    obtain ⟨m, hm⟩ := h.lhs_defined ⟨l, hl⟩
    obtain ⟨n, hn⟩ := h'.rhs_defined ⟨r', hr'⟩
    exact (h.eq_iff_eq hl hr hm hn).trans (h'.eq_iff_eq hm hn hl' hr')

theorem faithful_step {lhs rhs : Tree ν} {s : Solver ν} (hf : s.isFinished = false)
    (h : Faithful R ρ lhs rhs s) : Faithful R ρ lhs rhs s.step.1 := by
  rw [step_of_not_finished hf]
  cases hm : s.move with
  | arrived => exact ⟨h.lhs_defined, h.rhs_defined, h.eq_iff_eq⟩
  | stuck obstacle => exact ⟨h.lhs_defined, h.rhs_defined, h.eq_iff_eq⟩
  | freed lhs' rhs' => exact faithful_trans h (faithful_of_freed hm)

/-- **Every point of a run is faithful** to the start. -/
theorem faithful_turns (s : Solver ν) (n : Nat) : Faithful R ρ s.lhs s.rhs (turn^[n] s) :=
  keeps_turns (fun _ => faithful_step)
    (fun _ _ h => ⟨h.lhs_defined, h.rhs_defined, h.eq_iff_eq⟩) (faithful_refl s) n

end Solver

/-! ## Equations -/

namespace Equation

/-- Which side depends on the variable makes no difference to what is said. -/
theorem eq_iff_eq_of_sides {e : Equation ν} {name : String} {dependent known : Tree ν}
    {s : Solver ν} (h : Sides e name dependent known) (hs : Solver.Faithful R ρ dependent known s)
    {l r l' r' : ℚ} (hl : e.lhs.exactValue? R ρ = some l) (hr : e.rhs.exactValue? R ρ = some r)
    (hl' : s.lhs.exactValue? R ρ = some l') (hr' : s.rhs.exactValue? R ρ = some r') :
    l = r ↔ l' = r' := by
  obtain ⟨rfl, rfl⟩ | ⟨rfl, rfl⟩ := h.sides
  · exact hs.eq_iff_eq hl hr hl' hr'
  · exact eq_comm.trans (hs.eq_iff_eq hr hl hl' hr')

/-- **Solving neither loses nor invents solutions.**  Let constants stand for any rational numbers,
and powers and functions for any partial functions.  At every point of the run that solving an
equation of built sides starts, an assignment under which both sides of the equation and both sides
of the solver have a value solves the equation exactly if it solves the one the solver holds.  The
run comes to the solution; so if that is solved, the equation holds exactly where the variable has
the value that was found. -/
theorem solve_solutions (R : Reading ν) (ρ : String → ℚ) (e : Equation ν) (hl : e.lhs.Built)
    (hr : e.rhs.Built) (name : String) (maxSteps : Option Int) :
    (∀ s, e.solver? name maxSteps = .ok (some s) →
      (∃ n events, e.solve name maxSteps = .ok (solutionOf name (Solver.turn^[n] s), events)) ∧
      ∀ n l r l' r', e.lhs.exactValue? R ρ = some l → e.rhs.exactValue? R ρ = some r →
        (Solver.turn^[n] s).lhs.exactValue? R ρ = some l' →
        (Solver.turn^[n] s).rhs.exactValue? R ρ = some r' → (l = r ↔ l' = r')) ∧
    ∃ solution events, e.solve name maxSteps = .ok (solution, events) ∧
      (solution.solved = true → ∃ found, solution.equation = some found ∧
        (∃ stored, found.lhs = .var (.text name) stored) ∧
        ∀ l r v, e.lhs.exactValue? R ρ = some l → e.rhs.exactValue? R ρ = some r →
          found.rhs.exactValue? R ρ = some v → (l = r ↔ ρ name = v)) := by
  rcases sides_or_same e name with ⟨dependent, known, h⟩ | h
  · set start := Solver.start dependent known [name] maxSteps with hstart
    have hsolver : e.solver? name maxSteps = .ok (some start) := solver?_of_sides h hl hr maxSteps
    have hsolve := solve_of_sides h hl hr maxSteps
    obtain ⟨n, -, hn, -⟩ := start.drive_eq_turns
    have hlast : start.solve.1 = Solver.turn^[n] start := hn
    rw [← hstart, hlast] at hsolve
    refine ⟨fun s hs => ⟨?_, ?_⟩, _, _, hsolve, fun hsolved => ?_⟩
    · obtain rfl := Option.some.inj (Except.ok.inj (hsolver.symm.trans hs))
      exact ⟨n, _, hsolve⟩
    · obtain rfl := Option.some.inj (Except.ok.inj (hsolver.symm.trans hs))
      intro m l r l' r' hl hr hl' hr'
      exact eq_iff_eq_of_sides h (Solver.faithful_turns start m) hl hr hl' hr'
    · have hinv : Solver.Invariant dependent known [name] (Solver.turn^[n] start) :=
        Solver.keeps_turns (fun _ => Solver.invariant_step) (fun _ => Solver.invariant_giveUp)
          (Solver.invariant_start ..) n
      obtain ⟨target, htarget, stored, hvar⟩ :=
        Solver.exists_of_isTarget (hinv.target_of_solved hsolved)
      obtain rfl := List.mem_singleton.1 htarget
      refine ⟨_, if_pos hsolved, ⟨stored, hvar⟩, fun l r v hl hr hv => ?_⟩
      refine eq_iff_eq_of_sides h (Solver.faithful_turns start n) hl hr ?_ hv
      rw [hvar]
      exact Tree.exactValue?_var ..
  · refine ⟨fun s hs => ?_, _, _, solve_of_no_side h maxSteps, fun hs => absurd hs (by simp)⟩
    rw [solver?_of_no_side h] at hs
    exact absurd hs (by simp)

/-- The equation `6 / x = y`, where `y` has a value. -/
def quotient : Equation Int :=
  ⟨.seq .product [⟨.const 6, true⟩, ⟨.var (.text "x") none, false⟩], .var (.text "y") (some 2)⟩

theorem built_quotient : quotient.lhs.Built ∧ quotient.rhs.Built := by
  refine ⟨Tree.built_seq ?_, .var "y" (some 2)⟩
  simp only [List.forall_mem_cons, List.not_mem_nil, false_imp_iff, implies_true, and_true]
  exact ⟨.const 6, .var "x" none⟩

/-- The solver of `6 / x = y` comes to `x = 1 / y * 6` in one step, and finds `x` there in another. -/
theorem solve_start_quotient :
    (Solver.start quotient.lhs quotient.rhs ["x"] none).solve.1
      = Solver.turn^[2] (.start quotient.lhs quotient.rhs ["x"] none) :=
  Solver.drive_of_turns rfl

/-- Where `x` is 4 and `y` is 2, neither `6 / x = y` holds nor `x = 1 / y * 6`, which the solver
comes to.  Where `x` is 3 and `y` is 2, the equation holds, and 3 is the value that is found. -/
theorem solutions_quotient :
    (quotient.lhs.Built ∧ quotient.rhs.Built) ∧
      let R : Reading Int := ⟨fun n => n, fun _ _ => none, fun _ _ => none⟩
      let ρ : ℚ → String → ℚ := fun x name => if name = "x" then x else 2
      (∃ s, quotient.solver? "x" none = .ok (some s) ∧
        quotient.lhs.exactValue? R (ρ 4) = some (3 / 2) ∧
          quotient.rhs.exactValue? R (ρ 4) = some 2 ∧
          (Solver.turn^[1] s).lhs.exactValue? R (ρ 4) = some 4 ∧
          (Solver.turn^[1] s).rhs.exactValue? R (ρ 4) = some 3 ∧
          ((3 / 2 : ℚ) = 2 ↔ (4 : ℚ) = 3)) ∧
      ∃ solution events found, quotient.solve "x" none = .ok (solution, events) ∧
        solution.solved = true ∧ solution.equation = some found ∧
          quotient.lhs.exactValue? R (ρ 3) = some 2 ∧ quotient.rhs.exactValue? R (ρ 3) = some 2 ∧
          found.rhs.exactValue? R (ρ 3) = some 3 ∧ ((2 : ℚ) = 2 ↔ ρ 3 "x" = 3) := by
  obtain ⟨hlhs, hrhs⟩ := built_quotient
  refine ⟨built_quotient, ?_⟩
  intro R ρ
  refine ⟨⟨.start quotient.lhs quotient.rhs ["x"] none, rfl, ?_⟩, ?_⟩
  · have hl : quotient.lhs.exactValue? R (ρ 4) = some (3 / 2) := by decide +kernel
    have hr : quotient.rhs.exactValue? R (ρ 4) = some 2 := by decide +kernel
    have hl' : (Solver.turn^[1] (.start quotient.lhs quotient.rhs ["x"] none)).lhs.exactValue? R
        (ρ 4) = some 4 := by decide +kernel
    have hr' : (Solver.turn^[1] (.start quotient.lhs quotient.rhs ["x"] none)).rhs.exactValue? R
        (ρ 4) = some 3 := by decide +kernel
    exact ⟨hl, hr, hl', hr',
      ((solve_solutions R (ρ 4) quotient hlhs hrhs "x" none).1 _ rfl).2 1 _ _ _ _ hl hr hl' hr'⟩
  · have hsides : Sides quotient "x" quotient.lhs quotient.rhs :=
      ⟨.inl ⟨rfl, rfl⟩, by decide, by decide⟩
    obtain ⟨solution, events, hsolve, hfound⟩ :=
      (solve_solutions R (ρ 3) quotient hlhs hrhs "x" none).2
    -- the solution is the end of the run, which can be looked at
    have hend : solution
        = solutionOf "x" (Solver.turn^[2] (.start quotient.lhs quotient.rhs ["x"] none)) := by
      rw [← solve_start_quotient]
      exact eq_solutionOf_of_solve hsides hlhs hrhs hsolve
    have hsolved : solution.solved = true := by
      rw [hend]
      rfl
    obtain ⟨found, heq, _, hvalue⟩ := hfound hsolved
    have hrhs' : found.rhs
        = (Solver.turn^[2] (.start quotient.lhs quotient.rhs ["x"] none)).rhs := by
      rw [hend] at heq
      exact (congrArg Equation.rhs (Option.some.inj heq)).symm
    have hl : quotient.lhs.exactValue? R (ρ 3) = some 2 := by decide +kernel
    have hr : quotient.rhs.exactValue? R (ρ 3) = some 2 := by decide +kernel
    have hv : found.rhs.exactValue? R (ρ 3) = some 3 := by
      rw [hrhs']
      decide +kernel
    exact ⟨solution, events, found, hsolve, hsolved, heq, hl, hr, hv, hvalue _ _ _ hl hr hv⟩

end Equation

end Isolate
