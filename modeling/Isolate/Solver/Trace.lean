import Isolate.Log
import Isolate.Solver.Equation
import Isolate.Tree.Query

/-!
# What a run writes to the log

Every event of a run is one message: a step and an obstacle for debugging, giving up as a warning,
and the outcome as detailed information.

* `Event.message` - the message of an event, if what it mentions can be written;
* `Solver.solveWith`, `Equation.solveWith` - runs that log every message as they come to it.
-/

namespace Isolate

/-- An obstacle as text. -/
def Obstacle.text : Obstacle → Except Fault String
  | otherVariable name =>
    .ok ("left-hand side is the other variable \x27" ++ name.shown ++ "\x27")
  | constant => .ok "left-hand side is a constant"
  | severalTerms => .ok "more than one term depends on the variable"
  | noTerm => .ok "no term depends on the variable"
  | power => .ok "variable inside an exponentiation"
  | function id => do
    let f ← Builtin.coded (.int id)
    .ok ("variable inside " ++ f.name ++ "()")
  | placeholder => .ok "left-hand side is a placeholder"
  | plain value => .error (.notNode value)

/-- The message that an event is logged as. -/
def Event.message : Event Float → Except Fault Log.Message
  | stuck steps obstacle => do
    let reason ← obstacle.text
    .ok (.debug ("Unsolvable at step " ++ Nat.repr steps ++ ": " ++ reason))
  | stepped steps lhs rhs => do
    let equation ← (Equation.mk lhs rhs).text
    .ok (.debug ("Step " ++ Nat.repr steps ++ ": " ++ equation))
  | gaveUp steps => .ok (.warning ("Giving up after " ++ Nat.repr steps ++ " steps"))
  | solved lhs rhs => do
    let equation ← (Equation.mk lhs rhs).text
    .ok (.info .detailed ("Solved: " ++ equation))
  | notIsolated targets =>
    let names := ", ".intercalate ((sortedOnce targets).map Text.quoted)
    .ok (.info .detailed ("No isolation possible for [" ++ names ++ "]"))
  | noSide name onBoth =>
    let sides := if onBoth then "both sides" else "neither side"
    .ok (.info .detailed ("Cannot solve for \x27" ++ name ++ "\x27: it appears on " ++ sides))

/-- The messages that some events are logged as. -/
def Event.messages (events : List (Event Float)) : Except Fault (List Log.Message) :=
  events.mapM message

/-! ## Runs that log as they go

A log is anything that messages are added to. Every message is put together before the log is asked
whether it passes, so a message that cannot be written ends the run whatever the log is. -/

section Logging

variable {σ : Type} (log : σ → Log.Message → σ)

/-- Steps until the end, or until no more are allowed, with a log at hand. -/
def Solver.driveWith (s : Solver Float) (held : σ) : Except Fault (Solver Float × σ) :=
  if _h : s.isFinished then .ok (s, held)
  else if s.isCapped then do
    let messages ← Event.messages [.gaveUp s.steps]
    .ok ({ s with solvable := false }, messages.foldl log held)
  else do
    let messages ← Event.messages s.step.2
    driveWith s.step.1 (messages.foldl log held)
termination_by s.remaining
decreasing_by exact remaining_step (by simpa using ‹¬s.isFinished = true›)

/-- A run to the end, with a log at hand. -/
def Solver.solveWith (s : Solver Float) (held : σ) : Except Fault (Solver Float × σ) := do
  let (last, held) ← s.driveWith log held
  let message ← last.verdict.message
  .ok (last, log held message)

/-- The equation solved for a variable, with a log at hand. -/
def Equation.solveWith (e : Equation Float) (name : String) (maxSteps : Option Int) (held : σ) :
    Except Fault (Solution Float × σ) := do
  match ← e.solver? name maxSteps with
  | some s =>
    let (last, held) ← s.solveWith log held
    .ok (solutionOf name last, held)
  | none =>
    let message ← (Event.noSide name (!isKnownSide name e.lhs)).message
    .ok (⟨none, name, false, false, 0⟩, log held message)

end Logging

end Isolate
