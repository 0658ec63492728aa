import Isolate.Proofs.Solver.Others
import Isolate.Proofs.Solver.Simulation
import Isolate.Proofs.Tree.Recast
import Mathlib.Logic.Equiv.Basic

/-!
# Solving with other numbers and names

A solver asks of a leaf only whether it is the target and whether a value is stored on it.  So with
other numbers and names that leave this as it is (`Recasting.Respects`), it makes the same moves
(`move_recast`): the two runs go side by side, and what the one finds is what the other finds,
recast.

* `simulation_recast` - the two runs;
* `solve_recast` - what they find;
* `solve_translation` - **solving looks at neither numbers nor spellings**.
-/

namespace Isolate

variable {ν μ : Type} {c : Recasting ν μ} {name name' : String}

namespace Solver

/-- An obstacle with another name in it. -/
def Obstacle.recast (c : Recasting ν μ) : Obstacle → Obstacle
  | .otherVariable n => .otherVariable (c.name n)
  | obstacle => obstacle

/-- A move between sides with other numbers and names. -/
def Move.recast (c : Recasting ν μ) : Move ν → Move μ
  | .arrived => .arrived
  | .stuck obstacle => .stuck (Obstacle.recast c obstacle)
  | .freed lhs rhs => .freed (lhs.recast c) (rhs.recast c)

/-- A solver with other numbers and names, and for another variable. -/
def recast (c : Recasting ν μ) (name' : String) (s : Solver ν) : Solver μ :=
  ⟨s.lhs.recast c, s.rhs.recast c, [name'], s.maxSteps, s.solved, s.solvable, s.steps⟩

/-! ## Moves -/

theorem isTarget_recast (hc : c.Respects name name') (t : Tree ν) :
    isTarget [name'] (t.recast c) = isTarget [name] t := by
  cases t with
  | var n stored =>
    simp only [Tree.recast_var, isTarget, Name.any_contains_singleton, hc.isText_eq]
  | seq kind terms => rw [Tree.recast_seq, isTarget, isTarget] <;> simp
  | _ => rfl

theorem isKnown_recast (hc : c.Respects name name') (t : Signed (Tree ν)) :
    isKnown [name'] (t.map (Tree.recast c)) = isKnown [name] t :=
  Tree.evaluatesConstant_recast hc t.item

theorem gathered_recast (kind : SeqKind) (rhs : Tree ν) (dependent : Signed (Tree ν))
    (known : List (Signed (Tree ν))) :
    gathered kind (rhs.recast c) (dependent.map (Tree.recast c))
        (known.map (·.map (Tree.recast c)))
      = (gathered kind rhs dependent known).recast c := by
  simp [gathered, carried, Signed.map]

theorem moveTerms_recast (hc : c.Respects name name') (kind : SeqKind)
    (terms : List (Signed (Tree ν))) (rhs : Tree ν) :
    moveTerms [name'] kind (terms.map (·.map (Tree.recast c))) (rhs.recast c)
      = (moveTerms [name] kind terms rhs).recast c := by
  have hknown : (terms.map (·.map (Tree.recast c))).filter (isKnown [name'])
      = (terms.filter (isKnown [name])).map (·.map (Tree.recast c)) := by
    rw [List.filter_map]
    exact congrArg _ (List.filter_congr fun t _ => isKnown_recast hc t)
  have hunknown : (terms.map (·.map (Tree.recast c))).filter (!isKnown [name'] ·)
      = (terms.filter (!isKnown [name] ·)).map (·.map (Tree.recast c)) := by
    rw [List.filter_map]
    exact congrArg _ (List.filter_congr fun t _ => congrArg _ (isKnown_recast hc t))
  rw [moveTerms, moveTerms, hknown, hunknown]
  match terms.filter (!isKnown [name] ·) with
  | [] => rfl
  | [dependent] => exact congrArg _ (gathered_recast kind rhs dependent _)
  | _ :: _ :: _ => rfl

/-- **The same move is made**, with other numbers and names in it. -/
theorem move_recast (hc : c.Respects name name') {s : Solver ν} (ht : s.targets = [name]) :
    (s.recast c name').move = s.move.recast c := by
  unfold move recast
  rw [ht]
  cases s.lhs with
  | var n stored =>
    have htarget := isTarget_recast hc (.var n stored)
    simp only [Tree.recast_var] at htarget ⊢
    rw [htarget]
    split <;> rfl
  | seq kind terms =>
    simp only [Tree.recast_seq]
    exact moveTerms_recast hc kind terms s.rhs
  | _ => rfl

/-! ## Runs -/

theorem step_recast (hc : c.Respects name name') {s : Solver ν} (ht : s.targets = [name])
    (hf : s.isFinished = false) : (s.recast c name').step.1 = s.step.1.recast c name' := by
  have hf' : (s.recast c name').isFinished = false := hf
  rw [step_of_not_finished hf, step_of_not_finished hf', move_recast hc ht]
  cases s.move <;> rfl

/-- A solver and the one with other numbers and names go through their runs side by side. -/
theorem simulation_recast (hc : c.Respects name name') :
    Simulation fun (s : Solver ν) (s' : Solver μ) =>
      s.targets = [name] ∧ s' = s.recast c name' where
  isFinished_eq := by
    rintro s s' ⟨_, rfl⟩
    rfl
  isCapped_eq := by
    rintro s s' ⟨_, rfl⟩
    rfl
  step := by
    rintro s s' ⟨ht, rfl⟩ hf _
    exact ⟨(targets_step s).trans ht, step_recast hc ht hf⟩
  giveUp := by
    rintro s s' ⟨ht, rfl⟩
    exact ⟨ht, rfl⟩

/-- **A run with other numbers and names** comes to the same end. -/
theorem solve_start_recast (hc : c.Respects name name') (lhs rhs : Tree ν)
    (maxSteps : Option Int) :
    (start (lhs.recast c) (rhs.recast c) [name'] maxSteps).solve.1
      = (start lhs rhs [name] maxSteps).solve.1.recast c name' := by
  have hstart : start (lhs.recast c) (rhs.recast c) [name'] maxSteps
      = (start lhs rhs [name] maxSteps).recast c name' := by
    rw [start, isTarget_recast hc]
    rfl
  exact ((simulation_recast hc).solve ⟨rfl, hstart⟩).2

end Solver

/-! ## Equations -/

/-- An equation with other numbers and names. -/
def Equation.recast (c : Recasting ν μ) (e : Equation ν) : Equation μ :=
  ⟨e.lhs.recast c, e.rhs.recast c⟩

/-- A solution with other numbers and names, and for another variable. -/
def Solution.recast (c : Recasting ν μ) (name' : String) (found : Solution ν) : Solution μ :=
  ⟨found.equation.map (Equation.recast c), name', found.solved, found.solvable, found.steps⟩

namespace Equation

theorem isKnownSide_recast (hc : c.Respects name name') (side : Tree ν) :
    isKnownSide name' (side.recast c) = isKnownSide name side :=
  Tree.evaluatesConstant_recast hc side

theorem sides_recast (hc : c.Respects name name') {e : Equation ν} {dependent known : Tree ν}
    (h : Sides e name dependent known) :
    Sides (e.recast c) name' (dependent.recast c) (known.recast c) := by
  refine ⟨?_, (isKnownSide_recast hc _).trans h.dependent_eq,
    (isKnownSide_recast hc _).trans h.known_eq⟩
  obtain ⟨rfl, rfl⟩ | ⟨rfl, rfl⟩ := h.sides
  · exact .inl ⟨rfl, rfl⟩
  · exact .inr ⟨rfl, rfl⟩

theorem solutionOf_recast (name name' : String) (s : Solver ν) :
    solutionOf name' (s.recast c name') = (solutionOf name s).recast c name' := by
  obtain ⟨lhs, rhs, targets, maxSteps, solved, solvable, steps⟩ := s
  cases solved <;> rfl

/-- **An equation with other numbers and names** has the solution with these numbers and names. -/
theorem solve_recast (hc : c.Respects name name') {e : Equation ν} (hl : e.lhs.Built)
    (hr : e.rhs.Built) (maxSteps : Option Int) :
    ∃ solution events events', e.solve name maxSteps = .ok (solution, events) ∧
      (e.recast c).solve name' maxSteps = .ok (solution.recast c name', events') := by
  have hl' : (e.recast c).lhs.Built := (Tree.built_recast_iff hc).2 hl
  have hr' : (e.recast c).rhs.Built := (Tree.built_recast_iff hc).2 hr
  rcases sides_or_same e name with ⟨dependent, known, h⟩ | h
  · have hrecast := solve_of_sides (sides_recast hc h) hl' hr' maxSteps
    rw [Solver.solve_start_recast hc, solutionOf_recast name] at hrecast
    exact ⟨_, _, _, solve_of_sides h hl hr maxSteps, hrecast⟩
  · have h' : isKnownSide name' (e.recast c).lhs = isKnownSide name' (e.recast c).rhs :=
      ((isKnownSide_recast hc _).trans h).trans (isKnownSide_recast hc _).symm
    exact ⟨_, _, _, solve_of_no_side h maxSteps, solve_of_no_side h' maxSteps⟩

/-- In what is found for a variable, nothing is left to forget about it. -/
theorem map_rhs_recast_forgetting {e : Equation ν} (hl : e.lhs.Built) (hr : e.rhs.Built)
    {maxSteps : Option Int} {solution : Solution ν} {events : List (Event ν)}
    (h : e.solve name maxSteps = .ok (solution, events)) :
    (solution.recast (.forgetting name) name).equation.map (·.rhs)
      = solution.equation.map (·.rhs) := by
  rcases sides_or_same e name with ⟨dependent, known, hsides⟩ | hsame
  · obtain rfl := eq_solutionOf_of_solve hsides hl hr h
    have hknown := (closed_solve hsides hl hr maxSteps).rhs_known
    simp only [Solution.recast, solutionOf]
    split
    · exact congrArg some (Tree.recast_forgetting_of_constant hknown)
    · rfl
  · rw [solve_of_no_side hsame] at h
    obtain ⟨rfl, -⟩ := Prod.mk.inj (Except.ok.inj h)
    rfl

/-- **Solving looks at neither numbers nor spellings.**  Let every number in an equation of built
sides, in a constant or stored for a variable, be changed by one function, and the variables be
renamed by another that keeps different names apart.  Solving the equation for the new name of a
variable within the same number of steps gives the same flags and steps, and the solution that is
changed in the same way.  If an equation differs in no more than what is stored for the variable
itself, solving it gives the same flags, steps and right-hand side. -/
theorem solve_translation (f : ν → μ) {r : String → String} (hinj : Function.Injective r)
    (e : Equation ν) (hl : e.lhs.Built) (hr : e.rhs.Built) (name : String)
    (maxSteps : Option Int) :
    ∃ solution events, e.solve name maxSteps = .ok (solution, events) ∧
      (∃ events', (e.recast (.translation f r)).solve (r name) maxSteps
        = .ok (solution.recast (.translation f r) (r name), events')) ∧
      ∀ other : Equation ν, other.recast (.forgetting name) = e.recast (.forgetting name) →
        ∃ solution' events', other.solve name maxSteps = .ok (solution', events') ∧
          solution'.solved = solution.solved ∧ solution'.solvable = solution.solvable ∧
          solution'.steps = solution.steps ∧
          solution'.equation.map (·.rhs) = solution.equation.map (·.rhs) := by
  have htranslation := Recasting.respects_translation f hinj name
  have hforgetting := Recasting.respects_forgetting (ν := ν) name
  obtain ⟨solution, events, events', hsolve, hrecast⟩ := solve_recast htranslation hl hr maxSteps
  refine ⟨solution, events, hsolve, ⟨events', hrecast⟩, fun other hother => ?_⟩
  obtain ⟨hlhs, hrhs⟩ := Equation.mk.inj hother
  have hl' : other.lhs.Built :=
    (Tree.built_recast_iff hforgetting).1 (hlhs ▸ (Tree.built_recast_iff hforgetting).2 hl)
  have hr' : other.rhs.Built :=
    (Tree.built_recast_iff hforgetting).1 (hrhs ▸ (Tree.built_recast_iff hforgetting).2 hr)
  -- with the value of the variable forgotten, both are the same equation
  obtain ⟨solution₁, events₁, _, hsolve₁, hforget₁⟩ := solve_recast hforgetting hl hr maxSteps
  obtain ⟨solution₂, events₂, _, hsolve₂, hforget₂⟩ := solve_recast hforgetting hl' hr' maxSteps
  obtain ⟨rfl, rfl⟩ := Prod.mk.inj (Except.ok.inj (hsolve₁.symm.trans hsolve))
  rw [hother] at hforget₂
  obtain ⟨hsame, -⟩ := Prod.mk.inj (Except.ok.inj (hforget₂.symm.trans hforget₁))
  obtain ⟨-, -, hsolved, hsolvable, hsteps⟩ := Solution.mk.inj hsame
  refine ⟨solution₂, events₂, hsolve₂, hsolved, hsolvable, hsteps, ?_⟩
  rw [← map_rhs_recast_forgetting hl hr hsolve, ← map_rhs_recast_forgetting hl' hr' hsolve₂, hsame]

/-- The equation `1 - 2 * x = y` with a value for its unknown. -/
def nestedWithValue : Equation Int :=
  ⟨.seq .sum [⟨.const 1, true⟩,
      ⟨.seq .product [⟨.const 2, true⟩, ⟨.var (.text "x") (some 3), true⟩], false⟩],
    .var (.text "y") (some 7)⟩

/-- With all numbers zero and the names of `x` and `y` exchanged, `1 - 2 * x = y` is solved for `y`
as it was for `x`, and it is solved for `x` alike if that has a value. -/
theorem solve_nested_translated :
    (Function.Injective (Equiv.swap "x" "y") ∧ nested.lhs.Built ∧ nested.rhs.Built ∧
        nestedWithValue.recast (.forgetting "x") = nested.recast (.forgetting "x")) ∧
      ∃ solution events events', nested.solve "x" none = .ok (solution, events) ∧
        solution.solved = true ∧
        (nested.recast (.translation (fun _ => (0 : Int)) (Equiv.swap "x" "y"))).solve "y" none
          = .ok (solution.recast (.translation (fun _ => 0) (Equiv.swap "x" "y")) "y", events') ∧
        ∃ solution' events', nestedWithValue.solve "x" none = .ok (solution', events') ∧
          solution'.solved = true ∧
          solution'.equation.map (·.rhs) = solution.equation.map (·.rhs) := by
  have hopen : nested.openSites "x" = [⟨.text "x", none, [.sum, .product]⟩] := by rfl
  have hforget : nestedWithValue.recast (.forgetting "x") = nested.recast (.forgetting "x") := rfl
  have hinj : Function.Injective (Equiv.swap "x" "y") := (Equiv.swap "x" "y").injective
  obtain ⟨solution, events, hsolve, ⟨events', hrecast⟩, hother⟩ := solve_translation
    (fun _ => (0 : Int)) hinj nested built_nested.1 built_nested.2 "x" none
  obtain ⟨solution₁, events₁, hsolve₁, hiff⟩ :=
    exists_solve_iff_isolable built_nested.1 built_nested.2 "x"
  obtain ⟨rfl, rfl⟩ := Prod.mk.inj (Except.ok.inj (hsolve₁.symm.trans hsolve))
  have hsolved : solution₁.solved = true := hiff.2 (hopen ▸ ⟨_, rfl, rfl, by simp⟩)
  obtain ⟨solution', events₂, hsolve', hsolved', -, -, hrhs⟩ := hother nestedWithValue hforget
  rw [Equiv.swap_apply_left] at hrecast
  exact ⟨⟨hinj, built_nested.1, built_nested.2, hforget⟩, solution₁, events₁, events', hsolve,
    hsolved, hrecast, solution', events₂, hsolve', hsolved'.trans hsolved, hrhs⟩

end Equation

end Isolate
