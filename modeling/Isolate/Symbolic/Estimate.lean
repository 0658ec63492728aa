import Isolate.Evaluation
import Isolate.Symbolic.Form

/-!
# Estimates of forms without symbols

A form without symbols is a number. `Form.estimate` finds a double near it, and so its sign and its
place among other numbers; a number that is not real has no estimate.

* `NamedNumber.double` - the doubles of the named numbers;
* `Form.estimate`, `Form.real?` - the double near a form;
* `Form.isPositiveNumber`, `Form.isNegativeNumber` - the sign of a form without symbols.
-/

namespace Isolate.Symbolic

/-- The double nearest a named number. -/
def NamedNumber.double : NamedNumber → Float
  | .euler => Float.exp 1.0
  | .pi => Float.acos (-1.0)

/-- The double nearest a finite constant. -/
def nearestFloat (q : Rat) : Float := Binary64.ofRatio (q.num < 0) q.num.natAbs q.den

/-- The double nearest a constant; one without a value or a sign is not a number. -/
def Scalar.estimate : Scalar → Float
  | exact q => nearestFloat q
  | rounded q => nearestFloat q
  | infinite negative => Binary64.ofMagnitude negative Binary64.infinity
  | pole => 0.0 / 0.0
  | undefined => 0.0 / 0.0

namespace Form

mutual

/-- A double near a form without symbols. It is not a number where a symbol occurs or where the form
is not real. -/
def estimate : Form → Float
  | scalar c => c.estimate
  | named c => c.double
  | symbol _ => 0.0 / 0.0
  | sum terms => termsEstimate terms
  | product c factors => c.estimate * factorsEstimate factors
  | apply .cot argument => 1.0 / (estimate argument).tan
  | apply f argument => Arithmetic.floatFunction f (estimate argument)

/-- A double near the sum of some terms. -/
def termsEstimate : List (Weighted Form) → Float
  | [] => 0.0
  | ⟨c, a⟩ :: rest => c.estimate * estimate a + termsEstimate rest

/-- A double near the product of some factors. -/
def factorsEstimate : List (Powered Form) → Float
  | [] => 1.0
  | ⟨b, e⟩ :: rest => (estimate b).pow (estimate e) * factorsEstimate rest

end

/-- A double near a form, if the form is a real number. -/
def real? (a : Form) : Option Float :=
  if a.occurrences.isEmpty then
    let x := a.estimate
    if x.isNaN then none else some x
  else none

/-- Whether a form is a positive number. -/
def isPositiveNumber (a : Form) : Bool :=
  match a.real? with
  | some x => 0.0 < x
  | none => false

/-- Whether a form is a negative number. -/
def isNegativeNumber (a : Form) : Bool :=
  match a.real? with
  | some x => x < 0.0
  | none => false

end Form

end Isolate.Symbolic
