import Isolate.Tree.Validity
import Isolate.Tree.Edit
import Isolate.Tree.Ask
import Isolate.Tree.Names
import Isolate.Solver.Trace
import Isolate.Expression
import Isolate.Symbolic.Compiled
import Isolate.Proofs.Outcome
import Isolate.Proofs.Distinct
import Isolate.Proofs.Keys
import Isolate.Proofs.Tree.Built
import Isolate.Proofs.Tree.Label
import Isolate.Proofs.Solver.Move
import Isolate.Proofs.Solver.Run
import Isolate.Proofs.Tree.Site
import Isolate.Proofs.Tree.Assign
import Isolate.Proofs.Tree.Walk
import Isolate.Proofs.Tree.Ask
import Isolate.Proofs.Tree.Level
import Isolate.Proofs.Tree.Valid
import Isolate.Proofs.Tree.Defect
import Isolate.Proofs.Tree.Constant
import Isolate.Proofs.Evaluation.Constant
import Isolate.Proofs.Evaluation.Assigned
import Isolate.Proofs.Evaluation.Refusal
import Isolate.Proofs.Tree.Reordered
import Isolate.Proofs.Tree.Recast
import Isolate.Proofs.Tree.Answers
import Isolate.Proofs.Solver.Sides
import Isolate.Proofs.Solver.Simulation
import Isolate.Proofs.Solver.Reordered
import Isolate.Proofs.Solver.Solvable
import Isolate.Proofs.Solver.Cap
import Isolate.Proofs.Solver.Calls
import Isolate.Proofs.Evaluation.Exact
import Isolate.Proofs.Solver.Solutions
import Isolate.Proofs.Evaluation.Elementwise
import Isolate.Proofs.Evaluation.Stored
import Isolate.Proofs.Evaluation.Doubles
import Isolate.Proofs.Evaluation.FirstFault
import Isolate.Proofs.Solver.Closed
import Isolate.Proofs.Solver.Report
import Isolate.Proofs.Solver.Valid
import Isolate.Proofs.Solver.Others
import Isolate.Proofs.Solver.Recast
import Isolate.Proofs.Solver.Attempt
import Isolate.Proofs.Number.Exact
import Isolate.Proofs.Number.Shortest
import Isolate.Proofs.Number.Numeral
import Isolate.Proofs.Number.Rounding
import Isolate.Proofs.Number.RoundTrip
import Isolate.Proofs.Number.Fewest
import Isolate.Proofs.Rendering.Text
import Isolate.Proofs.Rendering.Built
import Isolate.Proofs.Evaluation.Symbols
import Isolate.Proofs.Rendering.Formula
import Isolate.Proofs.Rendering.Latex
import Isolate.Proofs.Rendering.Kept
import Isolate.Proofs.Symbolic.Exponents
import Isolate.Proofs.Symbolic.Polynomial
import Isolate.Proofs.Symbolic.Factor
import Isolate.Proofs.Symbolic.Fraction
import Isolate.Proofs.Symbolic.Denotation
import Isolate.Proofs.Symbolic.Sum
import Isolate.Proofs.Symbolic.Product
import Isolate.Proofs.Symbolic.Rational
import Isolate.Proofs.Symbolic.Pointwise
import Isolate.Proofs.Symbolic.Equivalent
import Isolate.Proofs.Symbolic.Value
import Isolate.Proofs.Symbolic.Laws
import Isolate.Proofs.Symbolic.Compiled
import Isolate.Proofs.Tree.Names
import Isolate.Proofs.Tree.Depth
import Isolate.Proofs.Log.History
import Isolate.Proofs.Log.Trace
import Isolate.Proofs.Tree.Copy
import Isolate.Proofs.Solver.Copies
