import Isolate.Tree.Binding

/-!
# Isolating a variable

A `Solver` holds an equation `lhs = rhs` and takes the left-hand side apart. If exactly one term of
a sum or product depends on a target variable, the other terms go to the right-hand side with their
operation turned over, and the dependent term becomes the left-hand side. The solver ends when the
left-hand side is a target itself, when nothing can be taken apart, or when it has made as many
steps as it may.

* `Solver.move` - what the left-hand side allows: it is the target, it is stuck, or a term comes
  free;
* `Solver.step` - one step; every step that does not end the run makes the left-hand side one of
  its own terms, which is less deep (`depth_lt_of_freed`);
* `Solver.solve` - steps until the end.

Both report what happens as a list of events.
-/

namespace Isolate

/-- Why a left-hand side cannot be taken apart. -/
inductive Obstacle where
  | otherVariable (name : Name)
  | constant
  | severalTerms
  | noTerm
  | power
  | function (id : Int)
  | placeholder
  | plain (value : Datum)
deriving DecidableEq

/-- What a run reports. -/
inductive Event (ν : Type) where
  /-- The left-hand side is stuck, after some steps. -/
  | stuck (steps : Nat) (obstacle : Obstacle)
  /-- A step is done; the number includes it. -/
  | stepped (steps : Nat) (lhs rhs : Tree ν)
  /-- No more steps are allowed. -/
  | gaveUp (steps : Nat)
  /-- The run ends with a target on the left-hand side. -/
  | solved (lhs rhs : Tree ν)
  /-- The run ends otherwise. -/
  | notIsolated (targets : List String)
  /-- The variable is on neither side of an equation, or on both. -/
  | noSide (name : String) (onBoth : Bool)

/-- An equation in the course of being solved. -/
structure Solver (ν : Type) where
  lhs : Tree ν
  rhs : Tree ν
  targets : List String
  maxSteps : Option Int
  solved : Bool
  solvable : Bool
  steps : Nat

/-- How far a solver has come. -/
inductive Phase where
  | unsolved
  | solving
  | solved
  | unsolvable
deriving Repr, DecidableEq

namespace Solver

variable {ν : Type}

/-- Whether a tree is a variable among the targets. -/
def isTarget (targets : List String) : Tree ν → Bool
  | .var name _ => name.text?.any targets.contains
  | _ => false

/-- A solver at its start; it is at its end already if the left-hand side is a target. -/
def start (lhs rhs : Tree ν) (targets : List String) (maxSteps : Option Int) : Solver ν :=
  ⟨lhs, rhs, targets, maxSteps, isTarget targets lhs, true, 0⟩

/-- A solver is at its end when it is solved or cannot be. -/
def isFinished (s : Solver ν) : Bool := s.solved || !s.solvable

/-- How far a solver has come. -/
def phase (s : Solver ν) : Phase :=
  if s.solved then .solved
  else if !s.solvable then .unsolvable
  else if 0 < s.steps then .solving
  else .unsolved

/-! ## One step -/

/-- What a left-hand side allows. -/
inductive Move (ν : Type) where
  | arrived
  | stuck (obstacle : Obstacle)
  | freed (lhs rhs : Tree ν)

/-- Whether a term has a known value as long as the targets are unknown. -/
def isKnown (targets : List String) (term : Signed (Tree ν)) : Bool :=
  term.item.evaluatesConstant targets.contains

/-- A known term on the other side: its operation is turned over if the dependent term is added or
multiplied, and stays if the dependent term, moved itself, is subtracted or divides. -/
def carried (dependent term : Signed (Tree ν)) : Signed (Tree ν) :=
  ⟨term.item, if dependent.positive then !term.positive else term.positive⟩

/-- The right-hand side once a dependent term has come free: the old one with the sign of that
term, then the known terms in order. -/
def gathered (kind : SeqKind) (rhs : Tree ν) (dependent : Signed (Tree ν))
    (known : List (Signed (Tree ν))) : Tree ν :=
  .seq kind (⟨rhs, dependent.positive⟩ :: known.map (carried dependent))

/-- What the terms of a sequence on the left-hand side allow. -/
def moveTerms (targets : List String) (kind : SeqKind) (terms : List (Signed (Tree ν)))
    (rhs : Tree ν) : Move ν :=
  match terms.filter (!isKnown targets ·) with
  | [] => .stuck .noTerm
  | [dependent] =>
    .freed dependent.item (gathered kind rhs dependent (terms.filter (isKnown targets)))
  | _ => .stuck .severalTerms

/-- What the left-hand side allows. -/
def move (s : Solver ν) : Move ν :=
  match s.lhs with
  | .var name stored =>
    if isTarget s.targets (.var name stored) then .arrived else .stuck (.otherVariable name)
  | .const _ => .stuck .constant
  | .hole _ => .stuck .placeholder
  | .seq kind terms => moveTerms s.targets kind terms s.rhs
  | .pow _ _ => .stuck .power
  | .fn id _ => .stuck (.function id)
  | .foreign value => .stuck (.plain value)

/-- A solver after a move, which counts as one step. -/
def after (s : Solver ν) : Move ν → Solver ν
  | .arrived => { s with solved := true, steps := s.steps + 1 }
  | .stuck _ => { s with solvable := false, steps := s.steps + 1 }
  | .freed lhs rhs => { s with lhs, rhs, steps := s.steps + 1 }

/-- What a move has to report besides the step. -/
def report (s : Solver ν) : Move ν → List (Event ν)
  | .stuck obstacle => [.stuck s.steps obstacle]
  | _ => []

/-- One step; at the end nothing happens any more. -/
def step (s : Solver ν) : Solver ν × List (Event ν) :=
  if s.isFinished then (s, [])
  else
    let next := s.after s.move
    (next, s.report s.move ++ [.stepped next.steps next.lhs next.rhs])

/-! ## Termination -/

/-- A left-hand side that comes free is a term of the old one. -/
theorem depth_lt_of_freed {s : Solver ν} {lhs rhs : Tree ν} (h : s.move = .freed lhs rhs) :
    lhs.depth < s.lhs.depth := by
  unfold move at h
  split at h
  case h_4 kind terms heq =>
    rw [heq]
    unfold moveTerms at h
    split at h
    · simp at h
    · rename_i dependent hd
      simp only [Move.freed.injEq] at h
      rw [← h.1]
      exact Tree.depth_lt_of_mem (List.mem_filter.1 (hd ▸ List.mem_singleton_self dependent)).1
    · simp at h
  case h_1 => split at h <;> simp at h
  all_goals simp at h

/-- How many more steps there can be. -/
def remaining (s : Solver ν) : Nat := if s.isFinished then 0 else s.lhs.depth

/-- A step either ends the run or makes the left-hand side less deep. -/
theorem remaining_step {s : Solver ν} (h : s.isFinished = false) :
    s.step.1.remaining < s.remaining := by
  have hpos := s.lhs.depth_pos
  have hs : s.solved = false ∧ s.solvable = true := by
    simpa [isFinished] using h
  have hstep : s.step.1 = s.after s.move := by simp [step, h]
  have hleft : s.remaining = s.lhs.depth := by simp [remaining, h]
  rw [hstep, hleft]
  cases hm : s.move with
  | arrived => simpa [after, remaining, isFinished] using hpos
  | stuck obstacle => simpa [after, remaining, isFinished] using hpos
  | freed lhs rhs => simpa [after, remaining, isFinished, hs] using depth_lt_of_freed hm

/-! ## A whole run -/

/-- Whether a solver has made as many steps as it may. -/
def isCapped (s : Solver ν) : Bool := s.maxSteps.any fun cap => decide (cap ≤ Int.ofNat s.steps)

/-- Steps until the end, or until no more are allowed. -/
def drive (s : Solver ν) : Solver ν × List (Event ν) :=
  if _h : s.isFinished then (s, [])
  else if s.isCapped then ({ s with solvable := false }, [.gaveUp s.steps])
  else
    let (last, events) := drive s.step.1
    (last, s.step.2 ++ events)
termination_by s.remaining
decreasing_by exact remaining_step (by simpa using ‹¬s.isFinished = true›)

/-- The last word on a run. -/
def verdict (s : Solver ν) : Event ν :=
  if s.solved then .solved s.lhs s.rhs else .notIsolated s.targets

/-- A run to the end, with its verdict. -/
def solve (s : Solver ν) : Solver ν × List (Event ν) :=
  let (last, events) := s.drive
  (last, events ++ [last.verdict])

end Solver

end Isolate
