import Isolate.Proofs.Symbolic.Fold
import Isolate.Proofs.Symbolic.Polynomial
import Isolate.Symbolic.Fraction
import Mathlib.Algebra.BigOperators.Group.List.Basic
import Mathlib.Algebra.Field.Basic

/-!
# Products of powers of polynomials

A field holds the polynomials if they are embedded in it by `φ`.  Factors have a value there, the
product of their powers.  Factors are `Reduced` if their bases stand in order; then no base occurs
twice, and putting a factor among them multiplies the value and adds to a single exponent.

* `Factor.reduced_join`, `Factor.value_join`, `Factor.exponentIn_join` - what putting a factor among
  others does to their order, their value and their exponents.
-/

namespace Isolate.Symbolic

variable {F : Type} [Field F] {φ : MvPolynomial ℕ ℚ →+* F}

namespace Factor

/-- The value of a power of a polynomial. -/
noncomputable def value (φ : MvPolynomial ℕ ℚ →+* F) (f : Factor) : F :=
  φ f.base.toMv ^ f.exponent

/-- The base is a polynomial in canonical form other than zero. -/
structure Regular (f : Factor) : Prop where
  canonical : f.base.Canonical
  nonempty : f.base ≠ []

theorem Regular.base_ne_zero (hφ : Function.Injective φ) {f : Factor} (h : f.Regular) :
    φ f.base.toMv ≠ 0 := by
  rw [Ne, map_eq_zero_iff φ hφ, h.canonical.toMv_eq_zero_iff]
  exact h.nonempty

theorem Regular.value_ne_zero (hφ : Function.Injective φ) {f : Factor} (h : f.Regular) :
    f.value φ ≠ 0 :=
  zpow_ne_zero _ (h.base_ne_zero hφ)

theorem prod_value_ne_zero (hφ : Function.Injective φ) {fs : List Factor}
    (h : ∀ f ∈ fs, f.Regular) : (fs.map (value φ)).prod ≠ 0 := by
  refine List.prod_ne_zero fun hzero => ?_
  obtain ⟨f, hf, hvalue⟩ := List.mem_map.1 hzero
  exact (h f hf).value_ne_zero hφ hvalue

/-- The exponent does not matter. -/
theorem Regular.withExponent {f : Factor} (h : f.Regular) (e : ℤ) : Regular ⟨f.base, e⟩ :=
  ⟨h.canonical, h.nonempty⟩

/-- Factors with different bases, in order. -/
structure Reduced (fs : List Factor) : Prop where
  ordered : fs.Pairwise fun f g => f.base.order g.base = .lt
  regular : ∀ f ∈ fs, f.Regular

theorem reduced_nil : Reduced [] := ⟨List.Pairwise.nil, List.forall_mem_nil _⟩

theorem reduced_cons {f : Factor} {fs : List Factor} :
    Reduced (f :: fs) ↔
      (∀ g ∈ fs, f.base.order g.base = .lt) ∧ f.Regular ∧ Reduced fs := by
  constructor
  · rintro ⟨hordered, hregular⟩
    obtain ⟨hf, hfs⟩ := List.pairwise_cons.1 hordered
    obtain ⟨hregular, hothers⟩ := List.forall_mem_cons.1 hregular
    exact ⟨hf, hregular, hfs, hothers⟩
  · rintro ⟨hf, hregular, hfs, hothers⟩
    exact ⟨List.pairwise_cons.2 ⟨hf, hfs⟩, List.forall_mem_cons.2 ⟨hregular, hothers⟩⟩

variable {f g : Factor} {fs : List Factor}

/-! ## Putting a factor among others -/

theorem base_of_mem_join (h : g ∈ f.join fs) : g.base = f.base ∨ ∃ k ∈ fs, k.base = g.base := by
  induction fs with
  | nil =>
    obtain rfl := List.mem_singleton.1 h
    exact .inl rfl
  | cons k fs ih =>
    rw [join] at h
    cases horder : f.base.order k.base with
    | lt =>
      simp only [horder, List.mem_cons] at h
      rcases h with rfl | rfl | h
      · exact .inl rfl
      · exact .inr ⟨g, List.mem_cons_self, rfl⟩
      · exact .inr ⟨g, List.mem_cons_of_mem _ h, rfl⟩
    | gt =>
      simp only [horder, List.mem_cons] at h
      rcases h with rfl | h
      · exact .inr ⟨g, List.mem_cons_self, rfl⟩
      · rcases ih h with h | ⟨l, hl, h⟩
        · exact .inl h
        · exact .inr ⟨l, List.mem_cons_of_mem _ hl, h⟩
    | eq =>
      simp only [horder] at h
      split at h
      · exact .inr ⟨g, List.mem_cons_of_mem _ h, rfl⟩
      · rcases List.mem_cons.1 h with rfl | h
        · exact .inr ⟨k, List.mem_cons_self, rfl⟩
        · exact .inr ⟨g, List.mem_cons_of_mem _ h, rfl⟩

theorem reduced_join (hf : f.Regular) (h : Reduced fs) : Reduced (f.join fs) := by
  induction fs with
  | nil => exact reduced_cons.2 ⟨List.forall_mem_nil _, hf, h⟩
  | cons k fs ih =>
    obtain ⟨hk, hregular, hfs⟩ := reduced_cons.1 h
    rw [join]
    cases horder : f.base.order k.base with
    | lt =>
      refine reduced_cons.2 ⟨fun g hg => ?_, hf, h⟩
      rcases List.mem_cons.1 hg with rfl | hg
      · exact horder
      · exact Std.TransCmp.lt_trans horder (hk g hg)
    | gt =>
      refine reduced_cons.2 ⟨fun g hg => ?_, hregular, ih hfs⟩
      rcases base_of_mem_join hg with hg | ⟨l, hl, hg⟩
      · rw [hg]
        exact Std.OrientedCmp.lt_of_gt horder
      · exact hg ▸ hk l hl
    | eq =>
      dsimp only
      split
      · exact hfs
      · exact reduced_cons.2 ⟨hk, hregular.withExponent _, hfs⟩

theorem value_join (hφ : Function.Injective φ) (hf : f.Regular) (fs : List Factor) :
    ((f.join fs).map (value φ)).prod = f.value φ * (fs.map (value φ)).prod := by
  induction fs with
  | nil => rfl
  | cons k fs ih =>
    rw [join]
    cases horder : f.base.order k.base with
    | lt => rfl
    | gt => simp only [List.map_cons, List.prod_cons, ih, mul_left_comm]
    | eq =>
      have hbase : f.base = k.base := Std.LawfulEqCmp.eq_of_compare horder
      have hproduct : φ k.base.toMv ^ (k.exponent + f.exponent) = f.value φ * k.value φ := by
        rw [value, value, hbase, zpow_add₀ (hbase ▸ hf.base_ne_zero hφ), mul_comm]
      dsimp only
      rw [List.map_cons, List.prod_cons, ← mul_assoc, ← hproduct]
      split
      next hzero => rw [add_comm, hzero, zpow_zero, one_mul]
      next => rfl

/-! ## Exponents -/

theorem exponentIn_nil (p : Polynomial) : exponentIn p [] = 0 := rfl

theorem exponentIn_cons (p : Polynomial) (f : Factor) (fs : List Factor) :
    exponentIn p (f :: fs) = if f.base = p then f.exponent else exponentIn p fs := by
  by_cases h : f.base = p <;> simp [exponentIn, h]

theorem exponentIn_eq_zero {p : Polynomial} (h : ∀ f ∈ fs, f.base ≠ p) : exponentIn p fs = 0 := by
  induction fs with
  | nil => rfl
  | cons f fs ih =>
    obtain ⟨hf, hfs⟩ := List.forall_mem_cons.1 h
    rw [exponentIn_cons, if_neg hf, ih hfs]

theorem ne_of_order_lt {p q : Polynomial} (h : p.order q = .lt) : q ≠ p := by
  rintro rfl
  have hself : q.order q = .eq := Std.ReflCmp.compare_self
  rw [hself] at h
  cases h

theorem Reduced.exponentIn_eq (h : Reduced fs) (hf : f ∈ fs) :
    exponentIn f.base fs = f.exponent := by
  induction fs with
  | nil => simp at hf
  | cons k fs ih =>
    obtain ⟨hk, -, hfs⟩ := reduced_cons.1 h
    rw [exponentIn_cons]
    rcases List.mem_cons.1 hf with rfl | hf
    · rw [if_pos rfl]
    · rw [if_neg (ne_of_order_lt (hk f hf)).symm, ih hfs hf]

/-- **Putting a factor among others adds its exponent to that of its base.** -/
theorem exponentIn_join (h : Reduced fs) (p : Polynomial) (f : Factor) :
    exponentIn p (f.join fs) = exponentIn p fs + if f.base = p then f.exponent else 0 := by
  induction fs with
  | nil => rw [join, exponentIn_cons, exponentIn_nil, zero_add]
  | cons k fs ih =>
    obtain ⟨hk, -, hfs⟩ := reduced_cons.1 h
    rw [join]
    cases horder : f.base.order k.base with
    | lt =>
      dsimp only
      rw [exponentIn_cons]
      by_cases hf : f.base = p
      · have hothers : ∀ g ∈ k :: fs, g.base ≠ p := by
          intro g hg
          rw [← hf]
          rcases List.mem_cons.1 hg with rfl | hg
          · exact ne_of_order_lt horder
          · exact ne_of_order_lt (Std.TransCmp.lt_trans horder (hk g hg))
        rw [if_pos hf, if_pos hf, exponentIn_eq_zero hothers, zero_add]
      · rw [if_neg hf, if_neg hf, add_zero]
    | gt =>
      dsimp only
      rw [exponentIn_cons, exponentIn_cons, ih hfs]
      by_cases hkp : k.base = p
      · have hf : f.base ≠ p := by
          rw [← hkp]
          exact ne_of_order_lt (Std.OrientedCmp.lt_of_gt horder)
        rw [if_pos hkp, if_pos hkp, if_neg hf, add_zero]
      · rw [if_neg hkp, if_neg hkp]
    | eq =>
      have hbase : f.base = k.base := Std.LawfulEqCmp.eq_of_compare horder
      have hothers : k.base = p → exponentIn p fs = 0 := by
        rintro rfl
        exact exponentIn_eq_zero fun g hg => ne_of_order_lt (hk g hg)
      dsimp only
      rw [exponentIn_cons, hbase]
      by_cases hkp : k.base = p
      · rw [if_pos hkp, if_pos hkp]
        split
        next hzero => rw [hothers hkp, add_comm, hzero]
        next => rw [exponentIn_cons, if_pos hkp]
      · rw [if_neg hkp, if_neg hkp, add_zero]
        split
        next => rfl
        next => rw [exponentIn_cons, if_neg hkp]

/-! ## Several factors -/

theorem joinAll_spec (hφ : Function.Injective φ) {gs : List Factor} (hgs : ∀ g ∈ gs, g.Regular)
    (hfs : Reduced fs) :
    Reduced (gs.foldl (fun fs h => h.join fs) fs) ∧
      ((gs.foldl (fun fs h => h.join fs) fs).map (value φ)).prod =
        (fs.map (value φ)).prod * (gs.map (value φ)).prod := by
  refine foldl_prod (P := Regular) (f := value φ) (g := fun fs => (fs.map (value φ)).prod)
    (fun g fs hg hfs => ?_) hgs hfs
  exact ⟨reduced_join hg hfs, value_join hφ hg fs⟩

/-- How often a polynomial occurs among some factors in all. -/
def totalExponent (p : Polynomial) (fs : List Factor) : ℤ :=
  (fs.map fun f => if f.base = p then f.exponent else 0).sum

theorem exponentIn_joinAll {gs : List Factor} (hgs : ∀ g ∈ gs, g.Regular) (hfs : Reduced fs)
    (p : Polynomial) :
    exponentIn p (gs.foldl (fun fs h => h.join fs) fs) = exponentIn p fs + totalExponent p gs := by
  refine (foldl_sum (P := Regular) (Q := Reduced) (g := exponentIn p) (fun g fs hg hfs => ?_)
    hgs hfs).2
  exact ⟨reduced_join hg hfs, (exponentIn_join hfs p g).trans (add_comm _ _)⟩

theorem totalExponent_inverses (p : Polynomial) (fs : List Factor) :
    totalExponent p (inverses fs) = -totalExponent p fs := by
  induction fs with
  | nil => rfl
  | cons f fs ih =>
    simp only [inverses, totalExponent, List.map_cons, List.sum_cons] at ih ⊢
    rw [ih, neg_add]
    by_cases h : f.base = p
    · rw [if_pos h, if_pos h]
    · rw [if_neg h, if_neg h, neg_zero]

theorem value_inverses (φ : MvPolynomial ℕ ℚ →+* F) (fs : List Factor) :
    ((inverses fs).map (value φ)).prod = ((fs.map (value φ)).prod)⁻¹ := by
  induction fs with
  | nil => exact inv_one.symm
  | cons f fs ih =>
    rw [inverses, List.map_cons, List.map_cons, List.prod_cons, List.map_cons, List.prod_cons,
      mul_inv, ← ih, value, value, zpow_neg]
    rfl

end Factor

end Isolate.Symbolic
