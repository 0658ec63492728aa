import Isolate.Symbolic.Collect

/-!
# Forms with a minus sign in front

Of a form and its opposite at most one is negated. A constant and a product show their sign. A sum
is negated if more than half of its terms are; if exactly half of them are, its terms are compared
with those of its opposite in the order in which both are written. So `x - 1` is not negated and
`1 - x` is.

* `Form.isNegated` - whether a form has a minus sign in front.
-/

namespace Isolate.Symbolic

namespace Weighted

/-- Whether a term is a positive number, exact, rounded or named. -/
def isPositiveNumber (t : Weighted Form) : Bool :=
  match t.item with
  | .scalar _ => t.weight.isPositive
  | .named _ => t.weight == .one
  | _ => false

/-- Whether a term is a negative multiple of a single factor. -/
def isNegativeMultiple (t : Weighted Form) : Bool :=
  t.weight.isNegative && match t.item with
    | .scalar _ => false
    | .product _ [_] => true
    | .product _ _ => false
    | _ => true

/-- The terms of a sum as they are written: a positive number comes before a negative multiple of a
single factor. -/
def written : List (Weighted Form) → List (Weighted Form)
  | [t, u] => if u.isPositiveNumber && t.isNegativeMultiple then [u, t] else [t, u]
  | terms => terms

end Weighted

namespace Form

/-- Whether a sum comes before its opposite, both as they are written. -/
def isBeforeOpposite (terms : List (Weighted Form)) : Bool :=
  let opposite := (neg (sum terms)).terms
  Key.orderAll (termKeys (Weighted.written terms)) (termKeys (Weighted.written opposite)) == .lt

/-- Whether a form has a minus sign in front. -/
def isNegated : Form → Bool
  | scalar c => c.isNegative
  | product c _ => c.isNegative
  | sum terms =>
    let negative := (terms.filter (·.weight.isNegative)).length
    let positive := terms.length - negative
    positive < negative || (positive == negative && isBeforeOpposite terms)
  | _ => false

end Form

end Isolate.Symbolic
