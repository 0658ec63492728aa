import Isolate.Number.Decimal
import Isolate.Proofs.Number.Exact
import Mathlib.Algebra.Order.Field.Basic
import Mathlib.Data.Rat.Cast.Order
import Mathlib.Tactic.FieldSimp
import Mathlib.Tactic.Ring

/-!
# Decimals that read back

The midpoints between neighbouring magnitudes cut the positive numbers into intervals, one for each
magnitude, with the ends of an interval belonging to the even magnitudes.  So a decimal reads back
as one magnitude at most.  The shortest decimal of a magnitude does read back as it, whichever of
the grids it was found on.

* `eq_of_readsBack` - decimals of the same value read back as the same magnitude;
* `readsBack_shortest` - the shortest decimal of a magnitude reads back as that magnitude.
-/

namespace Isolate.Decimal

-- Powers of numbers are the built-in ones, as in the definitions.
attribute [local instance (2000)] instPowNat

open Binary64

/-! ## Values -/

/-- The value of a decimal. -/
def value (d : Decimal) : ℚ := d.coefficient * (10 : ℚ) ^ d.exponent

theorem den_pos (d : Decimal) : (0 : ℚ) < d.den := by
  rw [den]
  exact_mod_cast Nat.pow_pos (by decide)

/-- A decimal is the ratio of its numerator and its denominator. -/
theorem num_eq (d : Decimal) : (d.num : ℚ) = d.value * d.den := by
  obtain ⟨c, e⟩ := d
  rw [num, den, value]
  push_cast
  rw [mul_assoc]
  congr 1
  -- one of the two powers is one
  rcases Int.le_total 0 e with he | he
  · obtain ⟨k, rfl⟩ := Int.eq_ofNat_of_zero_le he
    simp
  · obtain ⟨k, hk⟩ := Int.eq_ofNat_of_zero_le (Int.neg_nonneg.2 he)
    obtain rfl : e = -(k : Int) := by omega
    simp

/-- What it means to read back, on values. -/
theorem readsBack_iff {d : Decimal} {m : Nat} :
    d.readsBack m = true ↔
      if m % 2 = 0 then
        (lowerMidpoint m : ℚ) ≤ d.value * (2 ^ (stepBits + 1) : Nat) ∧
          d.value * (2 ^ (stepBits + 1) : Nat) ≤ upperMidpoint m
      else
        (lowerMidpoint m : ℚ) < d.value * (2 ^ (stepBits + 1) : Nat) ∧
          d.value * (2 ^ (stepBits + 1) : Nat) < upperMidpoint m := by
  rw [readsBack]
  generalize 2 ^ (stepBits + 1) = scale
  have hscaled : ((d.num * scale : Nat) : ℚ) = d.value * scale * d.den := by
    rw [Nat.cast_mul, num_eq]
    ring
  have hden := d.den_pos
  -- the bounds are compared over the denominator
  have hle : ∀ a b : Nat, a ≤ b ↔ (a : ℚ) ≤ b := fun a b => Nat.cast_le.symm
  have hlt : ∀ a b : Nat, a < b ↔ (a : ℚ) < b := fun a b => Nat.cast_lt.symm
  split
  · rw [Bool.and_eq_true, decide_eq_true_iff, decide_eq_true_iff, hle, hle, hscaled, Nat.cast_mul,
      Nat.cast_mul, mul_le_mul_iff_of_pos_right hden, mul_le_mul_iff_of_pos_right hden]
  · rw [Bool.and_eq_true, decide_eq_true_iff, decide_eq_true_iff, hlt, hlt, hscaled, Nat.cast_mul,
      Nat.cast_mul, mul_lt_mul_iff_of_pos_right hden, mul_lt_mul_iff_of_pos_right hden]

theorem readsBack_of_value_eq {d d' : Decimal} {m : Nat} (hvalue : d.value = d'.value)
    (h : d'.readsBack m = true) : d.readsBack m = true := by
  rw [readsBack_iff] at h ⊢
  rwa [hvalue]

/-! ## One magnitude at most -/

/-- The interval of a magnitude ends where that of a greater one begins, or before. -/
theorem upperMidpoint_le_lowerMidpoint {m m' : Nat} (h : m < m') :
    upperMidpoint m ≤ lowerMidpoint m' := by
  have hfirst : steps m ≤ steps (m' - 1) := steps_strictMono.monotone (by omega)
  have hsecond : steps (m + 1) ≤ steps m' := steps_strictMono.monotone h
  rw [upperMidpoint, lowerMidpoint]
  omega

/-- If two magnitudes meet at a midpoint, one of them is odd. -/
theorem upperMidpoint_lt_lowerMidpoint {m m' : Nat} (h : m < m') (hm : m % 2 = 0)
    (hm' : m' % 2 = 0) : upperMidpoint m < lowerMidpoint m' := by
  have hfirst : steps m < steps (m' - 1) := steps_strictMono (by omega)
  have hsecond : steps (m + 1) ≤ steps m' := steps_strictMono.monotone h
  rw [upperMidpoint, lowerMidpoint]
  omega

theorem not_readsBack_of_lt {d d' : Decimal} {m m' : Nat} (hd : d.readsBack m = true)
    (hd' : d'.readsBack m' = true) (hvalue : d.value = d'.value) : ¬m < m' := by
  intro h
  rw [readsBack_iff] at hd hd'
  rw [hvalue] at hd
  have hle : (upperMidpoint m : ℚ) ≤ lowerMidpoint m' :=
    Nat.cast_le.2 (upperMidpoint_le_lowerMidpoint h)
  split at hd
  · rename_i hm
    split at hd'
    · rename_i hm'
      have hlt : (upperMidpoint m : ℚ) < lowerMidpoint m' :=
        Nat.cast_lt.2 (upperMidpoint_lt_lowerMidpoint h hm hm')
      linarith [hd.2, hd'.1]
    · linarith [hd.2, hd'.1]
  · split at hd'
    · linarith [hd.2, hd'.1]
    · linarith [hd.2, hd'.1]

/-- **Decimals of the same value read back as the same magnitude.** -/
theorem eq_of_readsBack {d d' : Decimal} {m m' : Nat} (hd : d.readsBack m = true)
    (hd' : d'.readsBack m' = true) (hvalue : d.value = d'.value) : m = m' := by
  have hle := not_readsBack_of_lt hd hd' hvalue
  have hge := not_readsBack_of_lt hd' hd hvalue.symm
  omega

/-! ## The shortest decimal -/

theorem roundHalfEven_eq_or (num den : Nat) :
    roundHalfEven num den = num / den ∨ roundHalfEven num den = num / den + 1 := by
  simp only [roundHalfEven]
  split
  · exact .inl rfl
  · split
    · exact .inr rfl
    · rcases Nat.mod_two_eq_zero_or_one (num / den) with h | h
      · exact .inl (by rw [h, Nat.add_zero])
      · exact .inr (by rw [h])

/-- What is found on a grid reads back. -/
theorem readsBack_of_closest? {m : Nat} {e : Int} {d : Decimal} (h : closest? m e = some d) :
    d.readsBack m = true := by
  simp only [closest?] at h
  split at h
  · rename_i hbelow habove
    obtain rfl := Option.some.inj h
    rcases roundHalfEven_eq_or (steps m * 10 ^ (-e).toNat) (2 ^ stepBits * 10 ^ e.toNat)
      with hr | hr
    · rw [hr]
      exact hbelow
    · rw [hr]
      exact habove
  · rename_i hbelow _
    obtain rfl := Option.some.inj h
    exact hbelow
  · rename_i _ habove
    obtain rfl := Option.some.inj h
    exact habove
  · exact absurd h (by simp)

/-- A count of steps is a decimal: to divide by a power of two is to multiply by one of five and
divide by one of ten. -/
theorem value_mul_five_pow (n k : Nat) :
    value ⟨n * 5 ^ k, -Int.ofNat k⟩ = (n : ℚ) / (2 ^ k : Nat) := by
  have hten : (10 : ℚ) ^ k = 2 ^ k * 5 ^ k := by
    rw [← mul_pow]
    norm_num
  have htwo : (2 : ℚ) ^ k ≠ 0 := pow_ne_zero _ (by norm_num)
  have hfive : (5 : ℚ) ^ k ≠ 0 := pow_ne_zero _ (by norm_num)
  rw [value, Int.ofNat_eq_natCast, zpow_neg, zpow_natCast, hten, Nat.cast_mul, Nat.cast_pow,
    Nat.cast_pow, Nat.cast_ofNat, Nat.cast_ofNat]
  field_simp

theorem value_exact (m : Nat) : (exact m).value = (steps m : ℚ) / (2 ^ stepBits : Nat) :=
  value_mul_five_pow (steps m) stepBits

/-- All the digits of a magnitude read back. -/
theorem readsBack_exact (m : Nat) : (exact m).readsBack m = true := by
  have hpos : ((2 ^ stepBits : Nat) : ℚ) ≠ 0 := Nat.cast_ne_zero.2 (Nat.pow_pos (by decide)).ne'
  have htwice : (exact m).value * (2 ^ (stepBits + 1) : Nat) = (2 * steps m : Nat) := by
    rw [value_exact, Nat.pow_succ]
    generalize 2 ^ stepBits = parts at *
    rw [div_mul_eq_mul_div, div_eq_iff hpos]
    push_cast
    ring
  have hupper : steps m < steps (m + 1) := steps_lt_steps_succ m
  rw [readsBack_iff, htwice]
  split
  · have hlower : steps (m - 1) ≤ steps m := steps_strictMono.monotone (by omega)
    constructor
    · exact Nat.cast_le.2 (by rw [lowerMidpoint]; omega)
    · exact Nat.cast_le.2 (by rw [upperMidpoint]; omega)
  · have hlower : steps (m - 1) < steps m := steps_strictMono (by omega)
    constructor
    · exact Nat.cast_lt.2 (by rw [lowerMidpoint]; omega)
    · exact Nat.cast_lt.2 (by rw [upperMidpoint]; omega)

/-- **The shortest decimal of a magnitude reads back** as that magnitude. -/
theorem readsBack_shortest (m : Nat) : (shortest m).readsBack m = true := by
  rw [shortest]
  cases hfound : (List.range 17).findSome? fun dropped =>
      closest? m (leading m - Int.ofNat dropped) with
  | none => exact readsBack_exact m
  | some d =>
    obtain ⟨dropped, _, hd⟩ := List.exists_of_findSome?_eq_some hfound
    exact readsBack_of_closest? hd

/-- Only zero has the shortest decimal zero. -/
theorem coefficient_shortest_ne_zero {m : Nat} (h : m ≠ 0) : (shortest m).coefficient ≠ 0 := by
  intro hzero
  have hvalue : (shortest m).value = (exact 0).value := by
    rw [value_exact, value, hzero, steps_zero, Nat.cast_zero, zero_mul, zero_div]
  exact h (eq_of_readsBack (readsBack_shortest m) (readsBack_exact 0) hvalue)

end Isolate.Decimal
