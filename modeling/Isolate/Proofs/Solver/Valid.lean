import Isolate.Proofs.Evaluation.Stored
import Isolate.Proofs.Solver.Report
import Isolate.Proofs.Solver.Sides
import Isolate.Proofs.Tree.Answers

/-!
# Checking is enough

A tree from outside may hold anything.  Once it has been checked and found valid, whatever this
library does with it succeeds, but for the evaluation of a variable that has no value.  For the
solver this takes an invariant: it puts new sequences together, which are valid because the sides
are and because a sequence that is gathered has at least one term (`isValid_of_freed`).  What it
reports on the way is about valid trees too, and can be written (`exists_messages_solve`).

* `solve_of_isValid` - an equation of valid sides is solved without fault, and a solution is valid;
* `isValid_suffices` - **a valid tree is safe to use**.
-/

namespace Isolate

namespace Solver

/-! ## Valid sides -/

variable {s : Solver Float}

/-- A solver between two valid trees. -/
def IsValid (s : Solver Float) : Prop := s.lhs.isValid = true ∧ s.rhs.isValid = true

/-- What comes free is valid, and so is what is gathered. -/
theorem isValid_of_freed (h : s.IsValid) {lhs rhs : Tree Float} (hm : s.move = .freed lhs rhs) :
    lhs.isValid = true ∧ rhs.isValid = true := by
  obtain ⟨kind, terms, dependent, hs, hd, rfl, rfl⟩ := exists_of_freed hm
  obtain ⟨hl, hr⟩ := h
  rw [hs, Tree.isValid_seq] at hl
  have hdependent : dependent ∈ terms :=
    (List.mem_filter.1 (hd ▸ List.mem_singleton_self dependent)).1
  refine ⟨hl.2 dependent hdependent, Tree.isValid_seq.2 ⟨List.cons_ne_nil _ _, ?_⟩⟩
  refine List.forall_mem_cons.2 ⟨hr, fun t ht => ?_⟩
  obtain ⟨u, hu, rfl⟩ := List.mem_map.1 ht
  exact hl.2 u (List.mem_filter.1 hu).1

theorem isValid_step (hf : s.isFinished = false) (h : s.IsValid) : s.step.1.IsValid := by
  rw [step_of_not_finished hf]
  cases hm : s.move with
  | arrived => exact h
  | stuck obstacle => exact h
  | freed lhs rhs => exact isValid_of_freed h hm

theorem isValid_solve (h : s.IsValid) : s.solve.1.IsValid :=
  keeps_solve (fun _ => isValid_step) (fun _ _ h => h) h

/-- **Whatever a run from valid sides reports can be written.** -/
theorem exists_messages_solve (h : s.IsValid) :
    ∃ messages, Event.messages s.solve.2 = .ok messages := by
  obtain ⟨t, -, hmessages⟩ :=
    exists_trace ⟨Tree.built_of_isValid h.1, Tree.built_of_isValid h.2⟩
  exact ⟨t.messages, hmessages⟩

end Solver

/-! ## Equations -/

namespace Equation

theorem ofSides_of_built {lhs rhs : Tree Float} (hl : lhs.Built) (hr : rhs.Built) :
    ofSides lhs rhs = .ok ⟨lhs, rhs⟩ := by
  cases lhs with
  | foreign found => exact hl.parts.elim
  | _ =>
    cases rhs with
    | foreign found => exact hr.parts.elim
    | _ => rfl

/-- **An equation of valid sides is solved without fault**, for any variable within any number of
steps; what is reported can be written, and a solution has valid sides. -/
theorem solve_of_isValid {e : Equation Float} (hl : e.lhs.isValid = true)
    (hr : e.rhs.isValid = true) (name : String) (maxSteps : Option Int) :
    ∃ solution events, e.solve name maxSteps = .ok (solution, events) ∧
      (∃ messages, Event.messages events = .ok messages) ∧
      ∀ found, solution.equation = some found →
        found.lhs.isValid = true ∧ found.rhs.isValid = true := by
  have hbl : e.lhs.Built := Tree.built_of_isValid hl
  have hbr : e.rhs.Built := Tree.built_of_isValid hr
  rcases sides_or_same e name with ⟨dependent, known, h⟩ | h
  · have hstart : (Solver.start dependent known [name] maxSteps).IsValid := by
      obtain ⟨rfl, rfl⟩ | ⟨rfl, rfl⟩ := h.sides
      · exact ⟨hl, hr⟩
      · exact ⟨hr, hl⟩
    refine ⟨_, _, solve_of_sides h hbl hbr maxSteps, Solver.exists_messages_solve hstart,
      fun found hfound => ?_⟩
    rw [solutionOf] at hfound
    dsimp only at hfound
    split at hfound
    · obtain rfl := Option.some.inj hfound
      exact Solver.isValid_solve hstart
    · exact absurd hfound (by simp)
  · exact ⟨_, _, solve_of_no_side h maxSteps, ⟨_, rfl⟩, fun found hfound => absurd hfound (by simp)⟩

end Equation

/-! ## Trees -/

namespace Tree

/-- **A valid tree is safe to use.**  Whatever is asked of it is answered; a copy is the same tree.
Where names are bound to single numbers, it has a value, unless some variable is neither bound nor
stored, and then the refusal names such a variable.  Two valid trees make an equation, which is
solved for any variable within any number of steps without fault; all that is reported can be
written, and a solution has valid sides. -/
theorem isValid_suffices :
    (∀ t : Tree Float, t.isValid = true → t.Answers ∧
      ∀ bindings : Samples, bindings.AreScalars →
        ((∃ g, t.valueOn bindings = .ok g) ∧ (∃ x, t.value bindings = .ok x) ∧
            ∀ name : String, (.text name, none) ∈ t.variableLeaves →
              bindings.lookup name ≠ none) ∨
          ∃ name : String, (.text name, none) ∈ t.variableLeaves ∧ bindings.lookup name = none ∧
            t.valueOn bindings = .error (.unbound (.text name)) ∧
            t.value bindings = .error (.unbound (.text name))) ∧
    ∀ lhs rhs : Tree Float, lhs.isValid = true → rhs.isValid = true →
      Equation.ofSides lhs rhs = .ok ⟨lhs, rhs⟩ ∧
      ∀ name maxSteps, ∃ solution events,
        (Equation.mk lhs rhs).solve name maxSteps = .ok (solution, events) ∧
        (∃ messages, Event.messages events = .ok messages) ∧
        ∀ found, solution.equation = some found →
          found.lhs.isValid = true ∧ found.rhs.isValid = true := by
  constructor
  · intro t h
    exact ⟨answers_of_isValid h, fun _ => value_of_built (built_of_isValid h)⟩
  · intro lhs rhs hl hr
    exact ⟨Equation.ofSides_of_built (built_of_isValid hl) (built_of_isValid hr),
      Equation.solve_of_isValid hl hr⟩

/-- The difference `y - sqrt(x)`, where `y` has the value 3. -/
def lessRoot : Tree Float :=
  .seq .sum [⟨.var (.text "y") (some 3), true⟩,
    ⟨.fn Builtin.sqrt.code (.var (.text "x") none), false⟩]

/-- It can be copied, and its names can be gathered; with `x` bound to 2 it has a value; and
`y - sqrt(x) = z` can be solved. -/
theorem suffices_lessRoot :
    (lessRoot.isValid = true ∧ Samples.AreScalars [("x", .real 2)] ∧
        (var (.text "z") none : Tree Float).isValid = true) ∧
      lessRoot.clone = .ok lessRoot ∧ lessRoot.gatheredNames = .ok [.text "y", .text "x"] ∧
      (∃ x, lessRoot.value [("x", .real 2)] = .ok x) ∧
      ∃ solution events,
        (Equation.mk lessRoot (.var (.text "z") none)).solve "y" none = .ok (solution, events) ∧
        ∃ messages, Event.messages events = .ok messages := by
  have hvalid : lessRoot.isValid = true := by decide
  have hz : (var (.text "z") none : Tree Float).isValid = true := by decide
  have hscalars : Samples.AreScalars [("x", .real 2)] := by
    intro entry hentry
    obtain rfl := List.mem_singleton.1 hentry
    exact ⟨_, rfl, rfl⟩
  obtain ⟨htree, hequation⟩ := isValid_suffices
  obtain ⟨hanswers, hvalue⟩ := htree lessRoot hvalid
  obtain ⟨_, hsolve⟩ := hequation lessRoot (.var (.text "z") none) hvalid hz
  obtain ⟨solution, events, hsolution, hmessages, _⟩ := hsolve "y" none
  have hnames : lessRoot.variableNames = [.text "y", .text "x"] := by decide
  refine ⟨⟨hvalid, hscalars, hz⟩, hanswers.clone, hnames ▸ hanswers.gatheredNames, ?_, solution,
    events, hsolution, hmessages⟩
  rcases hvalue [("x", .real 2)] hscalars with ⟨_, hx, _⟩ | ⟨name, hleaf, hnone, _⟩
  · exact hx
  · -- the only variable without a value is bound
    have hleaves : lessRoot.variableLeaves = [(.text "y", some 3), (.text "x", none)] := rfl
    rw [hleaves] at hleaf
    obtain rfl : name = "x" := by simpa using hleaf
    exact absurd hnone (by simp)

end Tree

end Isolate
