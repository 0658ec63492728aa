import Isolate.Symbolic.Polynomial
import Mathlib.Algebra.Order.Ring.Unbundled.Rat
import Mathlib.Order.Defs.LinearOrder

/-!
# The orders of exponents and of polynomials

Exponents are ordered as lists of numbers, and polynomials as lists of terms.  Both orders are total
and transitive, and only what is the same is equal, so that a list sorted by one of them holds equal
things side by side.
-/

namespace Isolate.Symbolic

theorem Exponents.order_eq : Exponents.order = List.compareLex compare := by
  funext m n
  induction m generalizing n with
  | nil => cases n <;> rfl
  | cons a m ih =>
    cases n with
    | nil => rfl
    | cons b n => rw [Exponents.order, List.compareLex_cons_cons, ih]

instance : Std.TransCmp Exponents.order := by
  rw [Exponents.order_eq]
  infer_instance

instance : Std.LawfulEqCmp Exponents.order := by
  rw [Exponents.order_eq]
  infer_instance

/-- Things can be ordered by some part of them. -/
theorem transCmp_on {α β : Type} (cmp : β → β → Ordering) [Std.TransCmp cmp] (f : α → β) :
    Std.TransCmp fun a b => cmp (f a) (f b) where
  eq_swap := Std.OrientedCmp.eq_swap
  isLE_trans := Std.TransCmp.isLE_trans

/-- The order of terms: by exponents and then by coefficients. -/
def Monomial.order : Monomial → Monomial → Ordering :=
  compareLex (fun m n => m.exponents.order n.exponents) fun m n =>
    compare m.coefficient n.coefficient

theorem compare_rat (a b : Rat) :
    (if a < b then .lt else if b < a then .gt else .eq : Ordering) = compare a b := by
  rcases lt_trichotomy a b with h | rfl | h
  · rw [if_pos h, compare_lt_iff_lt.2 h]
  · rw [if_neg (lt_irrefl a), if_neg (lt_irrefl a), compare_eq_iff_eq.2 rfl]
  · rw [if_neg h.asymm, if_pos h, compare_gt_iff_gt.2 h]

theorem Polynomial.order_eq : Polynomial.order = List.compareLex Monomial.order := by
  funext p q
  induction p generalizing q with
  | nil => cases q <;> rfl
  | cons m p ih =>
    cases q with
    | nil => rfl
    | cons n q =>
      rw [Polynomial.order, List.compareLex_cons_cons, ih, compare_rat, Monomial.order, compareLex,
        Ordering.then_assoc]

instance : Std.TransCmp Monomial.order :=
  have : Std.TransCmp fun m n : Monomial => m.exponents.order n.exponents :=
    transCmp_on Exponents.order Monomial.exponents
  have : Std.TransCmp fun m n : Monomial => compare m.coefficient n.coefficient :=
    transCmp_on compare Monomial.coefficient
  inferInstanceAs (Std.TransCmp (compareLex _ _))

instance : Std.LawfulEqCmp Monomial.order where
  compare_self := Std.ReflCmp.compare_self
  eq_of_compare {m n} h := by
    obtain ⟨hexponents, hcoefficient⟩ := compareLex_eq_eq.1 h
    have hm : m.exponents = n.exponents := Std.LawfulEqCmp.eq_of_compare hexponents
    have hc : m.coefficient = n.coefficient := compare_eq_iff_eq.1 hcoefficient
    cases m
    cases n
    exact congrArg₂ Monomial.mk hm hc

instance : Std.TransCmp Polynomial.order := by
  rw [Polynomial.order_eq]
  infer_instance

instance : Std.LawfulEqCmp Polynomial.order := by
  rw [Polynomial.order_eq]
  infer_instance

end Isolate.Symbolic
