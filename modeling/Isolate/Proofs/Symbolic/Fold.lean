import Mathlib.Algebra.BigOperators.Group.List.Basic
import Mathlib.Algebra.Group.TypeTags.Basic

/-!
# Collecting one by one

Sums and products are collected by folds: every step takes one more element into what has been
collected, keeps it collected, and adds or multiplies what the element is worth.  What is worth
nothing may be left out.

* `foldl_sum`, `foldl_prod` - the worth of everything collected;
* `sum_filter`, `prod_filter` - leaving out what is worth nothing;
* `partition_perm` - taking one kind of element after the other.
-/

namespace Isolate.Symbolic

variable {α σ M : Type}

section Fold

variable {step : σ → α → σ} {P : α → Prop} {Q : σ → Prop} {f : α → M} {g : σ → M}

theorem foldl_sum [AddCommMonoid M]
    (hstep : ∀ a s, P a → Q s → Q (step s a) ∧ g (step s a) = f a + g s)
    {as : List α} (has : ∀ a ∈ as, P a) {s : σ} (hs : Q s) :
    Q (as.foldl step s) ∧ g (as.foldl step s) = g s + (as.map f).sum := by
  induction as generalizing s with
  | nil => exact ⟨hs, (add_zero _).symm⟩
  | cons a as ih =>
    obtain ⟨ha, hothers⟩ := List.forall_mem_cons.1 has
    obtain ⟨hkept, hvalue⟩ := hstep a s ha hs
    obtain ⟨hfold, htotal⟩ := ih hothers hkept
    refine ⟨hfold, ?_⟩
    rw [List.foldl_cons, htotal, hvalue, List.map_cons, List.sum_cons, add_assoc, add_left_comm]

theorem foldl_prod [CommMonoid M]
    (hstep : ∀ a s, P a → Q s → Q (step s a) ∧ g (step s a) = f a * g s)
    {as : List α} (has : ∀ a ∈ as, P a) {s : σ} (hs : Q s) :
    Q (as.foldl step s) ∧ g (as.foldl step s) = g s * (as.map f).prod :=
  foldl_sum (M := Additive M) hstep has hs

end Fold

section Filter

variable {p : α → Bool} {f : α → M}

theorem sum_filter [AddMonoid M] {l : List α} (h : ∀ a ∈ l, p a = false → f a = 0) :
    ((l.filter p).map f).sum = (l.map f).sum := by
  induction l with
  | nil => rfl
  | cons a l ih =>
    obtain ⟨ha, hl⟩ := List.forall_mem_cons.1 h
    cases hp : p a with
    | true =>
      rw [List.filter_cons_of_pos hp, List.map_cons, List.sum_cons, ih hl, List.map_cons,
        List.sum_cons]
    | false =>
      rw [List.filter_cons_of_neg (Bool.not_eq_true _ ▸ hp), ih hl, List.map_cons, List.sum_cons,
        ha hp, zero_add]

theorem prod_filter [Monoid M] {l : List α} (h : ∀ a ∈ l, p a = false → f a = 1) :
    ((l.filter p).map f).prod = (l.map f).prod :=
  sum_filter (M := Additive M) h

end Filter

/-- The two parts of a list, the second one first. -/
theorem partition_perm (p : α → Bool) (l : List α) :
    ((l.partition p).2 ++ (l.partition p).1).Perm l := by
  rw [List.partition_eq_filter_filter]
  exact List.perm_append_comm.trans (List.filter_append_perm p l)

end Isolate.Symbolic
