import Isolate.Proofs.Solver.Sides
import Isolate.Proofs.Solver.Simulation
import Isolate.Proofs.Tree.Reordered

/-!
# Solving with terms in another order

The order of terms affects nothing but how a formula is written.  A step looks for the one term that
depends on the targets, and the terms that it carries over keep their order; so reordered sides
allow the same move, up to the order of what comes free and of what is gathered (`move_reordered`).
Two such runs go side by side, and come to the same end.

* `Reordered` - two solvers with reordered sides, alike in everything else;
* `simulation_reordered` - they stay so, step by step;
* `solve_reordered` - **the order of terms affects rendering only**.
-/

namespace Isolate

variable {ν : Type}

namespace Solver

/-! ## Moves -/

/-- Moves that differ in the order of terms only. -/
inductive Move.Reordered : Move ν → Move ν → Prop
  | arrived : Reordered .arrived .arrived
  | stuck (obstacle : Obstacle) : Reordered (.stuck obstacle) (.stuck obstacle)
  | freed {lhs lhs' rhs rhs' : Tree ν} :
      lhs.Reordered lhs' → rhs.Reordered rhs' → Reordered (.freed lhs rhs) (.freed lhs' rhs')

theorem Move.Reordered.refl (m : Move ν) : m.Reordered m := by
  cases m with
  | arrived => exact .arrived
  | stuck obstacle => exact .stuck obstacle
  | freed lhs rhs => exact .freed (.refl lhs) (.refl rhs)

theorem Move.Reordered.trans {m n k : Move ν} (h : m.Reordered n) (h' : n.Reordered k) :
    m.Reordered k := by
  cases h with
  | arrived => exact h'
  | stuck obstacle => exact h'
  | freed hl hr =>
    cases h' with
    | freed hl' hr' => exact .freed (hl.trans hl') (hr.trans hr')

section Terms

variable {targets : List String} {kind : SeqKind} {terms others : List (Signed (Tree ν))}
  {rhs : Tree ν}

/-- What is gathered is reordered with the old right-hand side, which is one of its terms. -/
theorem gathered_reordered {rhs rhs' : Tree ν} (h : rhs.Reordered rhs')
    (dependent : Signed (Tree ν)) (known : List (Signed (Tree ν))) :
    (gathered kind rhs dependent known).Reordered (gathered kind rhs' dependent known) :=
  .term [] dependent.positive (known.map (carried dependent)) h

/-- So it is with the terms that are carried over. -/
theorem gathered_terms {dependent dependent' : Signed (Tree ν)}
    {known known' : List (Signed (Tree ν))}
    (hsign : dependent.positive = dependent'.positive)
    (h : List.Forall₂ Tree.TermReordered known known') :
    (gathered kind rhs dependent known).Reordered (gathered kind rhs dependent' known') := by
  have hcarried : List.Forall₂ Tree.TermReordered (known.map (carried dependent))
      (known'.map (carried dependent')) := by
    refine List.rel_map (fun a b hab => ⟨?_, hab.2⟩) h
    simp only [carried, hab.1, hsign]
  rw [gathered, gathered, ← hsign]
  exact .terms hcarried [⟨rhs, dependent.positive⟩]

/-- The terms may be permuted. -/
theorem moveTerms_perm (h : terms.Perm others) :
    (moveTerms targets kind terms rhs).Reordered (moveTerms targets kind others rhs) := by
  have hunknown := h.filter (!isKnown targets ·)
  have hknown := h.filter (isKnown targets)
  unfold moveTerms
  generalize terms.filter (!isKnown targets ·) = unknown at hunknown
  match unknown with
  | [] =>
    rw [hunknown.symm.eq_nil]
    exact .stuck _
  | [dependent] =>
    rw [hunknown.symm.eq_singleton]
    exact .freed (.refl _) (.perm (.cons _ (hknown.map _)))
  | a :: b :: rest =>
    generalize others.filter (!isKnown targets ·) = unknown' at hunknown
    match unknown' with
    | [] => exact absurd hunknown.length_eq (by simp)
    | [_] => exact absurd hunknown.length_eq (by simp)
    | _ :: _ :: _ => exact .stuck _

/-- The terms may be reordered inside, one by one. -/
theorem moveTerms_terms (h : List.Forall₂ Tree.TermReordered terms others) :
    (moveTerms targets kind terms rhs).Reordered (moveTerms targets kind others rhs) := by
  have hsame : ∀ {a b : Signed (Tree ν)}, Tree.TermReordered a b →
      isKnown targets a = isKnown targets b :=
    fun h => Tree.evaluatesConstant_reordered h.2 _
  have hknown : List.Forall₂ Tree.TermReordered (terms.filter (isKnown targets))
      (others.filter (isKnown targets)) :=
    List.rel_filter (fun _ _ hab => by simp only [hsame hab]) h
  have hunknown : List.Forall₂ Tree.TermReordered (terms.filter (!isKnown targets ·))
      (others.filter (!isKnown targets ·)) :=
    List.rel_filter (fun _ _ hab => by simp only [hsame hab]) h
  unfold moveTerms
  generalize terms.filter (!isKnown targets ·) = unknown at hunknown
  generalize others.filter (!isKnown targets ·) = unknown' at hunknown
  cases hunknown with
  | nil => exact .stuck _
  | cons hfirst hmore =>
    cases hmore with
    | nil => exact .freed hfirst.2 (gathered_terms hfirst.1 hknown)
    | cons _ _ => exact .stuck _

end Terms

/-- Reordering the left-hand side reorders the move. -/
theorem move_reordered_lhs {lhs lhs' : Tree ν} (h : lhs.Reordered lhs') (s : Solver ν) :
    ({ s with lhs := lhs } : Solver ν).move.Reordered ({ s with lhs := lhs' } : Solver ν).move := by
  induction h with
  | refl t => exact .refl _
  | trans _ _ ih ih' => exact ih.trans ih'
  | perm h => exact moveTerms_perm h
  | term before positive after h _ =>
    have hsame : ∀ terms : List (Signed (Tree ν)), List.Forall₂ Tree.TermReordered terms terms :=
      fun terms => List.forall₂_same.2 fun _ _ => ⟨rfl, .refl _⟩
    exact moveTerms_terms (List.rel_append (hsame before) (.cons ⟨rfl, h⟩ (hsame after)))
  | base exponent _ _ => exact .stuck _
  | exponent base _ _ => exact .stuck _
  | argument id _ _ => exact .stuck _

/-- Reordering the right-hand side reorders what is gathered. -/
theorem move_reordered_rhs {rhs rhs' : Tree ν} (h : rhs.Reordered rhs') (s : Solver ν) :
    ({ s with rhs := rhs } : Solver ν).move.Reordered ({ s with rhs := rhs' } : Solver ν).move := by
  unfold move
  dsimp only
  cases s.lhs with
  | seq kind terms =>
    dsimp only
    unfold moveTerms
    split
    · exact .stuck _
    · exact .freed (.refl _) (gathered_reordered h _ _)
    · exact .stuck _
  | _ => exact .refl _

/-! ## Runs -/

/-- Two solvers with reordered sides, alike in everything else. -/
structure Reordered (s s' : Solver ν) : Prop where
  lhs : s.lhs.Reordered s'.lhs
  rhs : s.rhs.Reordered s'.rhs
  targets_eq : s.targets = s'.targets
  maxSteps_eq : s.maxSteps = s'.maxSteps
  solved_eq : s.solved = s'.solved
  solvable_eq : s.solvable = s'.solvable
  steps_eq : s.steps = s'.steps

/-- **Reordered sides allow the same move**, up to the order. -/
theorem move_reordered {s s' : Solver ν} (h : Reordered s s') : s.move.Reordered s'.move := by
  have hl := move_reordered_lhs h.lhs s
  have hr := move_reordered_rhs h.rhs { s with lhs := s'.lhs }
  -- a move looks at the sides and the targets only
  have hmove : ({ s with lhs := s'.lhs, rhs := s'.rhs } : Solver ν).move = s'.move := by
    unfold move
    dsimp only
    rw [h.targets_eq]
  exact hl.trans (hmove ▸ hr)

theorem step_reordered {s s' : Solver ν} (h : Reordered s s') (hf : s.isFinished = false)
    (hf' : s'.isFinished = false) : Reordered s.step.1 s'.step.1 := by
  rw [step_of_not_finished hf, step_of_not_finished hf']
  have hsteps : s.steps + 1 = s'.steps + 1 := by rw [h.steps_eq]
  have hmove := move_reordered h
  generalize s.move = m at hmove
  generalize s'.move = m' at hmove
  cases hmove with
  | arrived => exact { h with solved_eq := rfl, steps_eq := hsteps }
  | stuck obstacle => exact { h with solvable_eq := rfl, steps_eq := hsteps }
  | freed hl hr => exact { h with lhs := hl, rhs := hr, steps_eq := hsteps }

/-- Solvers with reordered sides go through their runs side by side. -/
theorem simulation_reordered : Simulation (Reordered : Solver ν → Solver ν → Prop) where
  isFinished_eq h := by rw [isFinished, isFinished, h.solved_eq, h.solvable_eq]
  isCapped_eq h := by rw [isCapped, isCapped, h.maxSteps_eq, h.steps_eq]
  step h hf hf' := step_reordered h hf hf'
  giveUp h := { h with solvable_eq := rfl }

theorem isTarget_reordered {targets : List String} {t u : Tree ν} (h : t.Reordered u) :
    isTarget targets t = isTarget targets u := by
  induction h with
  | trans _ _ ih ih' => exact ih.trans ih'
  | _ => rfl

theorem start_reordered {lhs lhs' rhs rhs' : Tree ν} (hl : lhs.Reordered lhs')
    (hr : rhs.Reordered rhs') (targets : List String) (maxSteps : Option Int) :
    Reordered (start lhs rhs targets maxSteps) (start lhs' rhs' targets maxSteps) where
  lhs := hl
  rhs := hr
  targets_eq := rfl
  maxSteps_eq := rfl
  solved_eq := isTarget_reordered hl
  solvable_eq := rfl
  steps_eq := rfl

end Solver

/-! ## Equations -/

namespace Equation

theorem isKnownSide_reordered {side side' : Tree ν} (h : side.Reordered side') (name : String) :
    isKnownSide name side = isKnownSide name side' := Tree.evaluatesConstant_reordered h _

/-- The side that depends on the variable is the same one. -/
theorem sides_reordered {e e' : Equation ν} {name : String} {dependent known : Tree ν}
    (h : Sides e name dependent known) (hl : e.lhs.Reordered e'.lhs)
    (hr : e.rhs.Reordered e'.rhs) :
    ∃ dependent' known', Sides e' name dependent' known' ∧ dependent.Reordered dependent' ∧
      known.Reordered known' := by
  have hd := h.dependent_eq
  have hk := h.known_eq
  obtain ⟨rfl, rfl⟩ | ⟨rfl, rfl⟩ := h.sides
  · refine ⟨e'.lhs, e'.rhs, ⟨.inl ⟨rfl, rfl⟩, ?_, ?_⟩, hl, hr⟩
    · rw [← isKnownSide_reordered hl, hd]
    · rw [← isKnownSide_reordered hr, hk]
  · refine ⟨e'.rhs, e'.lhs, ⟨.inr ⟨rfl, rfl⟩, ?_, ?_⟩, hr, hl⟩
    · rw [← isKnownSide_reordered hr, hd]
    · rw [← isKnownSide_reordered hl, hk]

/-- What two such solvers have found has the same flags, steps and exact value. -/
theorem solutionOf_reordered {s s' : Solver ν} (h : Solver.Reordered s s') (name : String) :
    (solutionOf name s).solved = (solutionOf name s').solved ∧
      (solutionOf name s).solvable = (solutionOf name s').solvable ∧
      (solutionOf name s).steps = (solutionOf name s').steps ∧
      ∀ (R : Reading ν) (ρ : String → ℚ),
        (solutionOf name s).equation.map (·.rhs.exactValue? R ρ)
          = (solutionOf name s').equation.map (·.rhs.exactValue? R ρ) := by
  refine ⟨h.solved_eq, h.solvable_eq, h.steps_eq, fun R ρ => ?_⟩
  simp only [solutionOf, ← h.solved_eq]
  cases s.solved with
  | true => exact congrArg some (Tree.exactValue?_reordered R ρ h.rhs)
  | false => rfl

/-- Solving equations with reordered sides comes to the same end. -/
theorem solve_reordered {e e' : Equation ν} (hl : e.lhs.Built) (hr : e.rhs.Built)
    (hlhs : e.lhs.Reordered e'.lhs) (hrhs : e.rhs.Reordered e'.rhs) (name : String)
    (maxSteps : Option Int) :
    ∃ solution events solution' events', e.solve name maxSteps = .ok (solution, events) ∧
      e'.solve name maxSteps = .ok (solution', events') ∧
      solution.solved = solution'.solved ∧ solution.solvable = solution'.solvable ∧
      solution.steps = solution'.steps ∧
      ∀ (R : Reading ν) (ρ : String → ℚ),
        solution.equation.map (·.rhs.exactValue? R ρ)
          = solution'.equation.map (·.rhs.exactValue? R ρ) := by
  have hl' : e'.lhs.Built := hl.reordered hlhs
  have hr' : e'.rhs.Built := hr.reordered hrhs
  rcases sides_or_same e name with ⟨dependent, known, h⟩ | h
  · obtain ⟨dependent', known', h', hd, hk⟩ := sides_reordered h hlhs hrhs
    have hend := Solver.simulation_reordered.solve (Solver.start_reordered hd hk [name] maxSteps)
    exact ⟨_, _, _, _, solve_of_sides h hl hr maxSteps, solve_of_sides h' hl' hr' maxSteps,
      solutionOf_reordered hend name⟩
  · have h' : isKnownSide name e'.lhs = isKnownSide name e'.rhs := by
      rw [← isKnownSide_reordered hlhs, ← isKnownSide_reordered hrhs, h]
    exact ⟨_, _, _, _, solve_of_no_side h maxSteps, solve_of_no_side h' maxSteps, rfl, rfl, rfl,
      fun _ _ => rfl⟩

/-- **The order of terms affects rendering only.**  Reordering a tree leaves its size, its depth,
its names and how often each is used, and its validity as they are, and whether it evaluates to a
constant, whatever is listed; and it has the same exact value, or none, under every assignment,
whatever powers and functions stand for.  Reordering the built sides of an equation changes neither
the outcome of solving it for any variable within any number of steps, nor the steps taken, nor the
exact value that is found. -/
theorem reordered_alike :
    (∀ t u : Tree Float, t.Reordered u →
      t.count = u.count ∧ t.depth = u.depth ∧
        (∀ listed, t.evaluatesConstant listed = u.evaluatesConstant listed) ∧
        (∀ name, name ∈ t.variableNames ↔ name ∈ u.variableNames) ∧
        (∀ name, t.usage.lookup name = u.usage.lookup name) ∧
        t.isValid = u.isValid ∧
        ∀ (R : Reading Float) (ρ : String → ℚ), t.exactValue? R ρ = u.exactValue? R ρ) ∧
    ∀ e e' : Equation Float, e.lhs.Built → e.rhs.Built →
      e.lhs.Reordered e'.lhs → e.rhs.Reordered e'.rhs → ∀ name maxSteps,
        ∃ solution events solution' events', e.solve name maxSteps = .ok (solution, events) ∧
          e'.solve name maxSteps = .ok (solution', events') ∧
          solution.solved = solution'.solved ∧ solution.solvable = solution'.solvable ∧
          solution.steps = solution'.steps ∧
          ∀ (R : Reading Float) (ρ : String → ℚ),
            solution.equation.map (·.rhs.exactValue? R ρ)
              = solution'.equation.map (·.rhs.exactValue? R ρ) := by
  constructor
  · intro t u h
    exact ⟨Tree.count_reordered h, Tree.depth_reordered h, Tree.evaluatesConstant_reordered h,
      Tree.variableNames_reordered h, Tree.usage_reordered h, Tree.isValid_reordered h,
      fun R ρ => Tree.exactValue?_reordered R ρ h⟩
  · intro e e' hl hr hlhs hrhs name maxSteps
    exact solve_reordered hl hr hlhs hrhs name maxSteps

/-- The difference `x * 2 - y`, where `y` has the value 4. -/
def leadingProduct : Tree Float :=
  .seq .sum [⟨.seq .product [⟨.var (.text "x") none, true⟩, ⟨.const 2, true⟩], true⟩,
    ⟨.var (.text "y") (some 4), false⟩]

/-- The same as `-y + 2 * x`. -/
def trailingProduct : Tree Float :=
  .seq .sum [⟨.var (.text "y") (some 4), false⟩,
    ⟨.seq .product [⟨.const 2, true⟩, ⟨.var (.text "x") none, true⟩], true⟩]

theorem built_leadingProduct : leadingProduct.Built := by
  refine Tree.built_seq ?_
  simp only [List.forall_mem_cons, List.not_mem_nil, false_imp_iff, implies_true, and_true]
  refine ⟨Tree.built_seq ?_, .var "y" (some 4)⟩
  simp only [List.forall_mem_cons, List.not_mem_nil, false_imp_iff, implies_true, and_true]
  exact ⟨.var "x" none, .const 2⟩

theorem reordered_leadingProduct : leadingProduct.Reordered trailingProduct :=
  (Tree.Reordered.perm (.swap ..)).trans (.term [_] true [] (.perm (.swap ..)))

/-- The solver of `x * 2 - y = 2` takes two steps to `x = (2 + y) / 2`, and finds `x` there in
another. -/
theorem solve_start_leadingProduct :
    (Solver.start leadingProduct (.const 2) ["x"] none).solve.1
      = Solver.turn^[3] (.start leadingProduct (.const 2) ["x"] none) :=
  Solver.drive_of_turns rfl

/-- Both `x * 2 - y = 2` and `-y + 2 * x = 2` are solved.  Where `y` is 4, the value that is found
for `x` is 3 in either. -/
theorem alike_leadingProduct :
    (leadingProduct.Built ∧ leadingProduct.Reordered trailingProduct) ∧
      (leadingProduct.depth = trailingProduct.depth ∧
        leadingProduct.isValid = trailingProduct.isValid) ∧
      ∃ solution events solution' events',
        Equation.solve ⟨leadingProduct, .const 2⟩ "x" none = .ok (solution, events) ∧
          Equation.solve ⟨trailingProduct, .const 2⟩ "x" none = .ok (solution', events') ∧
          (solution.solved = true ∧ solution'.solved = true ∧ solution'.steps = 3) ∧
          let R : Reading Float := ⟨fun _ => 2, fun _ _ => none, fun _ _ => none⟩
          let ρ : String → ℚ := fun _ => 4
          solution.equation.map (·.rhs.exactValue? R ρ) = some (some 3) ∧
            solution'.equation.map (·.rhs.exactValue? R ρ) = some (some 3) := by
  obtain ⟨htree, hsolve⟩ := reordered_alike
  obtain ⟨_, hdepth, _, _, _, hvalid, _⟩ :=
    htree leadingProduct trailingProduct reordered_leadingProduct
  obtain ⟨solution, events, solution', events', hs, hs', hsolved, _, hsteps, hvalue⟩ :=
    hsolve ⟨leadingProduct, .const 2⟩ ⟨trailingProduct, .const 2⟩ built_leadingProduct (.const 2)
      reordered_leadingProduct (.refl _) "x" none
  -- the first solution is the end of a run, which can be looked at; the second is only compared
  have hsides : Sides ⟨leadingProduct, .const 2⟩ "x" leadingProduct (.const 2) :=
    ⟨.inl ⟨rfl, rfl⟩, by decide, by decide⟩
  have hend : solution
      = solutionOf "x" (Solver.turn^[3] (.start leadingProduct (.const 2) ["x"] none)) := by
    rw [← solve_start_leadingProduct]
    exact eq_solutionOf_of_solve hsides built_leadingProduct (.const 2) hs
  have hfound : solution.solved = true := by
    rw [hend]
    rfl
  have hthree : solution.steps = 3 := by
    rw [hend]
    rfl
  refine ⟨⟨built_leadingProduct, reordered_leadingProduct⟩, ⟨hdepth, hvalid⟩, solution, events,
    solution', events', hs, hs', ⟨hfound, hsolved ▸ hfound, hsteps ▸ hthree⟩, ?_⟩
  intro R ρ
  have hexact : solution.equation.map (·.rhs.exactValue? R ρ) = some (some 3) := by
    rw [hend]
    decide +kernel
  exact ⟨hexact, (hvalue R ρ).symm.trans hexact⟩

end Equation

end Isolate
