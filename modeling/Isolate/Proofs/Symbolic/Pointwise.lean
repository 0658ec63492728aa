import Isolate.Proofs.Evaluation.Symbols
import Mathlib.Algebra.MvPolynomial.Funext
import Mathlib.Algebra.Field.Basic
import Mathlib.Data.Rat.Denumerable

/-!
# Rational functions and their values

A rational function is an element of a field, and it is a partial function of the values of its
symbols.  The two agree if one quotient of polynomials gives both: the element `x` agrees with the
partial function `f` if `x` is `P / Q`, and `f` has at most the values of `P / Q`.  What agrees is
closed under partial arithmetic, and an element is determined by the values of `f` at almost all
points.

* `Reading.whole` - exact arithmetic on doubles that are whole numbers;
* `Agreement` - relations between elements of a field and partial functions that keep to arithmetic,
  and `agreement_at`, the value at one point;
* `Agrees` - an element of a field and a partial function;
* `Agrees.add`, `Agrees.mul`, `Agrees.div`, `Agrees.power` - arithmetic;
* `Usually` - what holds wherever some polynomial is not zero;
* `Agrees.eq_iff` - **elements are equal exactly if their values are, where there are any**.
-/

namespace Isolate

open MvPolynomial

namespace Partial

/-- A power with a whole exponent; zero has no negative powers. -/
def wholePower (x y : ℚ) : Option ℚ :=
  if y.den ≠ 1 then none else if x = 0 ∧ y.num < 0 then none else some (x ^ y.num)

theorem wholePower_intCast (x : ℚ) (n : ℤ) :
    wholePower x n = if x = 0 ∧ n < 0 then none else some (x ^ n) := by
  rw [wholePower, if_neg (by simp)]
  rfl

end Partial

/-- Doubles are read as the whole numbers that they are, and powers have whole exponents. -/
def Reading.whole : Reading Float where
  number x := (Binary64.integer? x).getD 0
  power := Partial.wholePower
  function _ _ := none

/-! ## Almost all points -/

/-- What holds wherever some polynomial other than zero is not zero. -/
def Usually (p : (String → ℚ) → Prop) : Prop :=
  ∃ D : MvPolynomial String ℚ, D ≠ 0 ∧ ∀ ρ, eval ρ D ≠ 0 → p ρ

namespace Usually

variable {p q : (String → ℚ) → Prop}

theorem of_forall (h : ∀ ρ, p ρ) : Usually p := ⟨1, one_ne_zero, fun ρ _ => h ρ⟩

theorem mono (h : Usually p) (hpq : ∀ ρ, p ρ → q ρ) : Usually q := by
  obtain ⟨D, hD, hp⟩ := h
  exact ⟨D, hD, fun ρ hρ => hpq ρ (hp ρ hρ)⟩

theorem and (hp : Usually p) (hq : Usually q) : Usually fun ρ => p ρ ∧ q ρ := by
  obtain ⟨D, hD, hp⟩ := hp
  obtain ⟨E, hE, hq⟩ := hq
  refine ⟨D * E, mul_ne_zero hD hE, fun ρ hρ => ?_⟩
  rw [map_mul] at hρ
  exact ⟨hp ρ (left_ne_zero_of_mul hρ), hq ρ (right_ne_zero_of_mul hρ)⟩

theorem forall_mem {α : Type} {l : List α} {r : α → (String → ℚ) → Prop}
    (h : ∀ a ∈ l, Usually (r a)) : Usually fun ρ => ∀ a ∈ l, r a ρ := by
  induction l with
  | nil => exact of_forall fun ρ => List.forall_mem_nil _
  | cons a l ih =>
    obtain ⟨ha, hl⟩ := List.forall_mem_cons.1 h
    exact (ha.and (ih hl)).mono fun ρ hρ => List.forall_mem_cons.2 hρ

/-- A polynomial that is usually zero is zero. -/
theorem eq_zero {P : MvPolynomial String ℚ} (h : Usually fun ρ => eval ρ P = 0) : P = 0 := by
  obtain ⟨D, hD, hP⟩ := h
  have hproduct : P * D = 0 := by
    refine MvPolynomial.funext fun ρ => ?_
    rw [map_mul, map_zero]
    by_cases hρ : eval ρ D = 0
    · rw [hρ, mul_zero]
    · rw [hP ρ hρ, zero_mul]
  exact (mul_eq_zero.1 hproduct).resolve_right hD

end Usually

/-! ## Relations that keep to arithmetic -/

variable {F : Type} [Field F]

/-- A relation `A` between partial functions of the values of symbols and elements of a field that
keeps to arithmetic.  Elements that are related to a function in `N` can be inverted. -/
structure Agreement (env : String → F) (N : ((String → ℚ) → Option ℚ) → Prop)
    (A : ((String → ℚ) → Option ℚ) → F → Prop) : Prop where
  const (q : ℚ) : A (fun _ => some q) q
  symbol (name : String) : A (fun ρ => some (ρ name)) (env name)
  neg {f : (String → ℚ) → Option ℚ} {x : F} (hf : A f x) : A (fun ρ => (f ρ).map (-·)) (-x)
  add {f g : (String → ℚ) → Option ℚ} {x y : F} (hf : A f x) (hg : A g y) :
    A (fun ρ => Partial.add (f ρ) (g ρ)) (x + y)
  mul {f g : (String → ℚ) → Option ℚ} {x y : F} (hf : A f x) (hg : A g y) :
    A (fun ρ => Partial.mul (f ρ) (g ρ)) (x * y)
  div {f g : (String → ℚ) → Option ℚ} {x y : F} (hf : A f x) (hg : A g y) (hN : N g) :
    A (fun ρ => Partial.div (f ρ) (g ρ)) (x * y⁻¹)
  power {f : (String → ℚ) → Option ℚ} {x : F} (hf : A f x) (n : ℤ) (hN : n < 0 → N f) :
    A (fun ρ => (f ρ).bind fun v => Partial.wholePower v n) (x ^ n)
  ne_zero {f : (String → ℚ) → Option ℚ} {x : F} (hf : A f x) (hN : N f) : x ≠ 0

/-- The value at one point. -/
theorem agreement_at (ρ : String → ℚ) :
    Agreement ρ (fun f => f ρ ≠ some 0) fun f x => f ρ = some x where
  const q := by rw [Rat.cast_id]
  symbol name := rfl
  neg hf := congrArg (Option.map (-·)) hf
  add hf hg := congrArg₂ Partial.add hf hg
  mul hf hg := congrArg₂ Partial.mul hf hg
  div {f g x y} hf hg hN := by
    have hy : y ≠ 0 := fun h => hN (h ▸ hg)
    simp [hf, hg, Partial.div, hy, div_eq_mul_inv]
  power {f x} hf n hN := by
    have hx : ¬(x = 0 ∧ n < 0) := fun h => hN h.2 (h.1 ▸ hf)
    simp only [hf, Option.bind_some, Partial.wholePower_intCast, if_neg hx]
  ne_zero hf hN := fun h => hN (h ▸ hf)

/-! ## Rational functions -/

variable {ψ : MvPolynomial String ℚ →+* F}

/-- One quotient of polynomials is the element `x`, and has every value that `f` has. -/
def Agrees (ψ : MvPolynomial String ℚ →+* F) (f : (String → ℚ) → Option ℚ) (x : F) : Prop :=
  ∃ P Q : MvPolynomial String ℚ, Q ≠ 0 ∧ x = ψ P / ψ Q ∧
    ∀ ρ v, f ρ = some v → eval ρ Q ≠ 0 ∧ v = eval ρ P / eval ρ Q

namespace Agrees

variable {f g : (String → ℚ) → Option ℚ} {x y : F}

theorem polynomial (P : MvPolynomial String ℚ) : Agrees ψ (fun ρ => some (eval ρ P)) (ψ P) := by
  refine ⟨P, 1, one_ne_zero, by rw [map_one, div_one], fun ρ v hv => ?_⟩
  obtain rfl := Option.some.inj hv
  simp

theorem const (q : ℚ) : Agrees ψ (fun _ => some q) q := by
  have hpolynomial := polynomial (ψ := ψ) (C q)
  have hcast : ψ (C q) = q := eq_ratCast (ψ.comp C) q
  rw [hcast] at hpolynomial
  simpa only [eval_C] using hpolynomial

theorem symbol (name : String) : Agrees ψ (fun ρ => some (ρ name)) (ψ (X name)) := by
  simpa only [eval_X] using polynomial (ψ := ψ) (X name)

theorem map_ne_zero_of (hψ : Function.Injective ψ) {Q : MvPolynomial String ℚ} (hQ : Q ≠ 0) :
    ψ Q ≠ 0 :=
  (map_ne_zero_iff ψ hψ).2 hQ

theorem add (hψ : Function.Injective ψ) (hf : Agrees ψ f x) (hg : Agrees ψ g y) :
    Agrees ψ (fun ρ => Partial.add (f ρ) (g ρ)) (x + y) := by
  obtain ⟨P, Q, hQ, rfl, hf⟩ := hf
  obtain ⟨R, S, hS, rfl, hg⟩ := hg
  refine ⟨P * S + Q * R, Q * S, mul_ne_zero hQ hS, ?_, fun ρ v hv => ?_⟩
  · rw [map_add, map_mul, map_mul, map_mul,
      div_add_div _ _ (map_ne_zero_of hψ hQ) (map_ne_zero_of hψ hS)]
  · obtain ⟨a, b, ha, hb, rfl⟩ := Option.map₂_eq_some_iff.1 hv
    obtain ⟨hq, rfl⟩ := hf ρ a ha
    obtain ⟨hs, rfl⟩ := hg ρ b hb
    rw [map_add, map_mul, map_mul, map_mul, div_add_div _ _ hq hs]
    exact ⟨mul_ne_zero hq hs, rfl⟩

theorem neg (hf : Agrees ψ f x) : Agrees ψ (fun ρ => (f ρ).map (-·)) (-x) := by
  obtain ⟨P, Q, hQ, rfl, hf⟩ := hf
  refine ⟨-P, Q, hQ, by rw [map_neg, neg_div], fun ρ v hv => ?_⟩
  obtain ⟨a, ha, rfl⟩ := Option.map_eq_some_iff.1 hv
  obtain ⟨hq, rfl⟩ := hf ρ a ha
  rw [map_neg, neg_div]
  exact ⟨hq, rfl⟩

theorem mul (hf : Agrees ψ f x) (hg : Agrees ψ g y) :
    Agrees ψ (fun ρ => Partial.mul (f ρ) (g ρ)) (x * y) := by
  obtain ⟨P, Q, hQ, rfl, hf⟩ := hf
  obtain ⟨R, S, hS, rfl, hg⟩ := hg
  refine ⟨P * R, Q * S, mul_ne_zero hQ hS, ?_, fun ρ v hv => ?_⟩
  · rw [map_mul, map_mul, div_mul_div_comm]
  · obtain ⟨a, b, ha, hb, rfl⟩ := Option.map₂_eq_some_iff.1 hv
    obtain ⟨hq, rfl⟩ := hf ρ a ha
    obtain ⟨hs, rfl⟩ := hg ρ b hb
    rw [map_mul, map_mul, div_mul_div_comm]
    exact ⟨mul_ne_zero hq hs, rfl⟩

/-- What has a value other than zero somewhere is not zero, and no more than its numerator is. -/
theorem numerator_ne_zero {P Q : MvPolynomial String ℚ}
    (hf : ∀ ρ v, f ρ = some v → eval ρ Q ≠ 0 ∧ v = eval ρ P / eval ρ Q)
    (hvalue : ∃ ρ v, f ρ = some v ∧ v ≠ 0) : P ≠ 0 := by
  rintro rfl
  obtain ⟨ρ, v, hv, hne⟩ := hvalue
  refine hne ?_
  rw [(hf ρ v hv).2, map_zero, zero_div]

theorem ne_zero (hψ : Function.Injective ψ) (hf : Agrees ψ f x)
    (hvalue : ∃ ρ v, f ρ = some v ∧ v ≠ 0) : x ≠ 0 := by
  obtain ⟨P, Q, hQ, rfl, hf⟩ := hf
  exact div_ne_zero (map_ne_zero_of hψ (numerator_ne_zero hf hvalue)) (map_ne_zero_of hψ hQ)

theorem div (hf : Agrees ψ f x) (hg : Agrees ψ g y) (hvalue : ∃ ρ v, g ρ = some v ∧ v ≠ 0) :
    Agrees ψ (fun ρ => Partial.div (f ρ) (g ρ)) (x * y⁻¹) := by
  obtain ⟨P, Q, hQ, rfl, hf⟩ := hf
  obtain ⟨R, S, hS, rfl, hg⟩ := hg
  refine ⟨P * S, Q * R, mul_ne_zero hQ (numerator_ne_zero hg hvalue), ?_, fun ρ v hv => ?_⟩
  · rw [map_mul, map_mul, inv_div, div_mul_div_comm]
  · obtain ⟨a, ha, hv⟩ := Option.bind_eq_some_iff.1 hv
    obtain ⟨b, hb, hv⟩ := Option.bind_eq_some_iff.1 hv
    obtain ⟨hq, rfl⟩ := hf ρ a ha
    obtain ⟨hs, rfl⟩ := hg ρ b hb
    split at hv
    next => cases hv
    next hne =>
      obtain rfl := Option.some.inj hv
      have hr : eval ρ R ≠ 0 := fun h => hne (by rw [h, zero_div])
      rw [map_mul, map_mul, div_div_div_eq]
      exact ⟨mul_ne_zero hq hr, rfl⟩

/-- **A whole power**, if zero is not raised to a negative one. -/
theorem power (hf : Agrees ψ f x) (n : ℤ) (hvalue : n < 0 → ∃ ρ v, f ρ = some v ∧ v ≠ 0) :
    Agrees ψ (fun ρ => (f ρ).bind fun v => Partial.wholePower v n) (x ^ n) := by
  obtain ⟨P, Q, hQ, rfl, hf⟩ := hf
  cases n with
  | ofNat k =>
    refine ⟨P ^ k, Q ^ k, pow_ne_zero k hQ, ?_, fun ρ v hv => ?_⟩
    · rw [map_pow, map_pow, ← div_pow, Int.ofNat_eq_natCast, zpow_natCast]
    · obtain ⟨a, ha, hv⟩ := Option.bind_eq_some_iff.1 hv
      obtain ⟨hq, rfl⟩ := hf ρ a ha
      rw [Partial.wholePower_intCast, if_neg (by simp), Option.some.injEq] at hv
      rw [map_pow, map_pow, ← div_pow, ← hv, Int.ofNat_eq_natCast, zpow_natCast]
      exact ⟨pow_ne_zero k hq, rfl⟩
  | negSucc k =>
    have hP := numerator_ne_zero hf (hvalue (Int.negSucc_lt_zero k))
    refine ⟨Q ^ (k + 1), P ^ (k + 1), pow_ne_zero _ hP, ?_, fun ρ v hv => ?_⟩
    · rw [map_pow, map_pow, ← div_pow, zpow_negSucc, ← inv_pow, inv_div]
    · obtain ⟨a, ha, hv⟩ := Option.bind_eq_some_iff.1 hv
      obtain ⟨hq, rfl⟩ := hf ρ a ha
      rw [Partial.wholePower_intCast] at hv
      split at hv
      next => cases hv
      next hne =>
        have hp : eval ρ P ≠ 0 := fun h =>
          hne ⟨by rw [h, zero_div], Int.negSucc_lt_zero k⟩
        obtain rfl := Option.some.inj hv
        rw [map_pow, map_pow, ← div_pow, zpow_negSucc, ← inv_pow, inv_div]
        exact ⟨pow_ne_zero _ hp, rfl⟩

/-- Agreement keeps to arithmetic, where what is inverted is not zero somewhere. -/
theorem agreement (hψ : Function.Injective ψ) {env : String → F}
    (henv : ∀ name, env name = ψ (X name)) :
    Agreement env (fun f => ∃ ρ v, f ρ = some v ∧ v ≠ 0) (Agrees ψ) where
  const := const
  symbol name := henv name ▸ symbol name
  neg := neg
  add := add hψ
  mul := mul
  div := div
  power := power
  ne_zero := ne_zero hψ

/-- Where a divisor is not zero. -/
theorem usually_ne_zero (hf : Agrees ψ f x) (hvalue : ∃ ρ v, f ρ = some v ∧ v ≠ 0) :
    Usually fun ρ => f ρ ≠ some 0 := by
  obtain ⟨P, Q, hQ, -, hf⟩ := hf
  refine ⟨P, numerator_ne_zero hf hvalue, fun ρ hρ hzero => ?_⟩
  obtain ⟨hq, hv⟩ := hf ρ 0 hzero
  exact div_ne_zero hρ hq hv.symm

/-- **Elements are equal exactly if their values are**, wherever there are values of both. -/
theorem eq_iff (hψ : Function.Injective ψ) (hf : Agrees ψ f x) (hg : Agrees ψ g y)
    {p : (String → ℚ) → Prop} (hp : Usually p) (hvalues : ∀ ρ, p ρ → (f ρ).isSome ∧ (g ρ).isSome) :
    x = y ↔ ∀ ρ, p ρ → f ρ = g ρ := by
  obtain ⟨P, Q, hQ, rfl, hf⟩ := hf
  obtain ⟨R, S, hS, rfl, hg⟩ := hg
  rw [div_eq_div_iff (map_ne_zero_of hψ hQ) (map_ne_zero_of hψ hS), ← map_mul, ← map_mul, hψ.eq_iff]
  constructor
  · intro heq ρ hρ
    obtain ⟨hsomef, hsomeg⟩ := hvalues ρ hρ
    obtain ⟨a, ha⟩ := Option.isSome_iff_exists.1 hsomef
    obtain ⟨b, hb⟩ := Option.isSome_iff_exists.1 hsomeg
    obtain ⟨hq, rfl⟩ := hf ρ a ha
    obtain ⟨hs, rfl⟩ := hg ρ b hb
    rw [ha, hb, Option.some.injEq, div_eq_div_iff hq hs, ← map_mul, ← map_mul, heq]
  · intro hall
    refine sub_eq_zero.1 (Usually.eq_zero (hp.mono fun ρ hρ => ?_))
    obtain ⟨hsomef, -⟩ := hvalues ρ hρ
    obtain ⟨a, ha⟩ := Option.isSome_iff_exists.1 hsomef
    have hb : g ρ = some a := (hall ρ hρ) ▸ ha
    obtain ⟨hq, hvalue⟩ := hf ρ a ha
    obtain ⟨hs, hvalue'⟩ := hg ρ a hb
    rw [map_sub, map_mul, map_mul, sub_eq_zero, ← div_eq_div_iff hq hs, ← hvalue, ← hvalue']

end Agrees

end Isolate
