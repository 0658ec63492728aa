import Isolate.Number.Reading
import Isolate.Proofs.Number.Shortest

/-!
# Correct rounding

The magnitude nearest a ratio is found from its leading binary digits: some digits are dropped, and
what is left is rounded to a significand. The steps of a significand and of its neighbours show that
the ratio lies between the midpoints on either side of the magnitude that is found
(`nearest_between_midpoints`). So a decimal reads back as the magnitude it is rounded to, which is
the nearest one, an even one if two are equally near. Numbers with very many digits before or after
the point are not rounded but settled at once, with the same outcome.

* `RoundsTo`, `roundsTo_iff_readsBack` - **a decimal reads back as the magnitude nearest to it**;
* `nearest_eq_of_readsBack` - a decimal that reads back as a finite magnitude is rounded to it;
* `magnitude_eq_nearest` - the magnitude of a decimal is the one it is rounded to.
-/

namespace Isolate.Binary64

-- Powers of numbers are the built-in ones, as in the definitions.
attribute [local instance (2000)] instPowNat

open Decimal

/-! ## Rounding a quotient -/

/-- A rounded quotient is off by half at most, and by less if it is odd. -/
theorem roundHalfEven_bounds (num : Nat) {den : Nat} (hden : 0 < den) :
    2 * (roundHalfEven num den * den) ≤ 2 * num + den ∧
      2 * num ≤ 2 * (roundHalfEven num den * den) + den ∧
      (roundHalfEven num den % 2 = 1 →
        2 * (roundHalfEven num den * den) < 2 * num + den ∧
          2 * num < 2 * (roundHalfEven num den * den) + den) := by
  have hnum := Nat.div_add_mod num den
  have hrest := Nat.mod_lt num hden
  simp only [roundHalfEven]
  generalize num / den = low at *
  generalize num % den = rest at *
  have hlow : low * den = den * low := Nat.mul_comm ..
  have hhigh : (low + 1) * den = den * low + den := by rw [Nat.add_mul, hlow, Nat.one_mul]
  split
  · rw [hlow]
    omega
  · split
    · rw [hhigh]
      omega
    · -- a tie goes to the even neighbour
      rcases Nat.mod_two_eq_zero_or_one low with heven | hodd
      · rw [heven, Nat.add_zero, hlow]
        omega
      · rw [hodd, hhigh]
        omega

/-! ## The steps of a rounded significand -/

/-- The magnitude made of a significand and a number of dropped digits has the steps of the
significand, with zeros for the digits. A significand with a carry is allowed. -/
theorem steps_significand {k s : Nat} (hs : s ≤ 2 ^ (fractionBits + 1))
    (hk : k = 0 ∨ 2 ^ fractionBits ≤ s) : steps (k * 2 ^ fractionBits + s) = s * 2 ^ k := by
  have hbits : (2 : Nat) ^ fractionBits = 4503599627370496 := by norm_num [fractionBits]
  have htwice : (2 : Nat) ^ (fractionBits + 1) = 9007199254740992 := by norm_num [fractionBits]
  rw [hbits] at hk ⊢
  rw [htwice] at hs
  rw [steps, hbits]
  by_cases hsmall : k * 4503599627370496 + s < 4503599627370496
  · obtain rfl : k = 0 := by omega
    rw [if_pos hsmall, Nat.zero_mul, Nat.zero_add, Nat.pow_zero, Nat.mul_one]
  · rw [if_neg hsmall]
    rcases Nat.lt_or_ge s 9007199254740992 with hlt | hge
    · have hdiv : (k * 4503599627370496 + s) / 4503599627370496 - 1 = k := by omega
      have hmod : 4503599627370496 + (k * 4503599627370496 + s) % 4503599627370496 = s := by omega
      rw [hdiv, hmod]
    · -- a carry into the exponent
      have hdiv : (k * 4503599627370496 + s) / 4503599627370496 - 1 = k + 1 := by omega
      have hmod : 4503599627370496 + (k * 4503599627370496 + s) % 4503599627370496
          = 4503599627370496 := by omega
      rw [hdiv, hmod, Nat.pow_succ, Nat.mul_comm (2 ^ k), ← Nat.mul_assoc]
      congr 1
      omega

/-- The midpoint above a significand is half a unit away, or more where the unit changes. -/
theorem le_upperMidpoint {k s : Nat} (hs : s ≤ 2 ^ (fractionBits + 1))
    (hk : k = 0 ∨ 2 ^ fractionBits ≤ s) :
    (2 * s + 1) * 2 ^ k ≤ upperMidpoint (k * 2 ^ fractionBits + s) := by
  have htwice : (2 * s + 1) * 2 ^ k = s * 2 ^ k + (s + 1) * 2 ^ k := by
    rw [← Nat.add_mul]
    congr 1
    omega
  rw [upperMidpoint, steps_significand hs hk, htwice]
  apply Nat.add_le_add_left
  rcases Nat.lt_or_ge s (2 ^ (fractionBits + 1)) with hlt | hge
  · rw [Nat.add_assoc, steps_significand hlt (by omega)]
  · -- the next significand has a greater unit
    have hdouble : (2 : Nat) ^ (fractionBits + 1) = 2 ^ fractionBits * 2 := Nat.pow_succ ..
    have hfirst : (1 : Nat) ≤ 2 ^ fractionBits := Nat.one_le_two_pow
    have hnext : k * 2 ^ fractionBits + s + 1
        = (k + 1) * 2 ^ fractionBits + (2 ^ fractionBits + 1) := by
      rw [Nat.add_mul]
      omega
    rw [hnext, steps_significand (by omega) (by omega), Nat.pow_succ, Nat.mul_comm (2 ^ k),
      ← Nat.mul_assoc]
    exact Nat.mul_le_mul_right _ (by omega)

/-- The midpoint below a significand is half a unit away, unless the unit changes there. -/
theorem lowerMidpoint_le {k s : Nat} (hs : s ≤ 2 ^ (fractionBits + 1))
    (hk : k = 0 ∨ 2 ^ fractionBits < s) :
    lowerMidpoint (k * 2 ^ fractionBits + s) ≤ (2 * s - 1) * 2 ^ k := by
  rcases Nat.eq_zero_or_pos s with rfl | hpos
  · obtain rfl : k = 0 := by omega
    rw [Nat.zero_mul]
    exact Nat.zero_le _
  · have htwice : (2 * s - 1) * 2 ^ k = (s - 1) * 2 ^ k + s * 2 ^ k := by
      rw [← Nat.add_mul]
      congr 1
      omega
    rw [lowerMidpoint, Nat.add_sub_assoc hpos, steps_significand (by omega) (by omega),
      steps_significand hs (by omega), htwice]

/-- The midpoint below lies below, wherever the unit changes. -/
theorem lowerMidpoint_le_two_mul {k s : Nat} (hs : s ≤ 2 ^ (fractionBits + 1))
    (hk : k = 0 ∨ 2 ^ fractionBits ≤ s) :
    lowerMidpoint (k * 2 ^ fractionBits + s) ≤ 2 * (s * 2 ^ k) := by
  have hmono : steps (k * 2 ^ fractionBits + s - 1) ≤ steps (k * 2 ^ fractionBits + s) :=
    steps_strictMono.monotone (Nat.sub_le _ _)
  rw [lowerMidpoint, Nat.two_mul]
  rw [steps_significand hs hk] at hmono ⊢
  exact Nat.add_le_add_right hmono _

/-- Without the digits after the leading ones, a number is as long as a significand, or is one that
was not longer before. -/
theorem leading_digits (q : Nat) :
    q / 2 ^ (q.log2 - fractionBits) < 2 ^ (fractionBits + 1) ∧
      (q.log2 - fractionBits = 0 ∨ 2 ^ fractionBits ≤ q / 2 ^ (q.log2 - fractionBits)) := by
  constructor
  · rw [Nat.div_lt_iff_lt_mul (Nat.two_pow_pos _), ← Nat.pow_add]
    exact Nat.lt_of_lt_of_le Nat.lt_log2_self (Nat.pow_le_pow_right (by decide) (by omega))
  · rcases Nat.eq_zero_or_pos (q.log2 - fractionBits) with hzero | hpos
    · exact .inl hzero
    · have hq : q ≠ 0 := by
        rintro rfl
        exact absurd hpos (by simp)
      have hsplit : fractionBits + (q.log2 - fractionBits) = q.log2 := by omega
      refine .inr ?_
      rw [Nat.le_div_iff_mul_le (Nat.two_pow_pos _), ← Nat.pow_add, hsplit]
      exact Nat.log2_self_le hq

/-- What `nearest` computes: `k` binary digits are dropped, and `s` is the rounded significand. A
digit is dropped only if the significand is long enough. -/
theorem exists_significand (num : Nat) {den : Nat} (hden : 0 < den) :
    ∃ k s, nearest num den = min infinity (k * 2 ^ fractionBits + s) ∧
      s = roundHalfEven (num * 2 ^ stepBits) (den * 2 ^ k) ∧ s ≤ 2 ^ (fractionBits + 1) ∧
      (k = 0 ∨ 2 ^ fractionBits ≤ s ∧ 2 ^ fractionBits * (den * 2 ^ k) ≤ num * 2 ^ stepBits) := by
  rw [nearest]
  generalize num * 2 ^ stepBits = scaled
  obtain ⟨hlt, hge⟩ := leading_digits (scaled / den)
  rw [Nat.div_div_eq_div_mul] at hlt hge
  generalize hk : (scaled / den).log2 - fractionBits = k at hlt hge
  have hround := roundHalfEven_eq_or scaled (den * 2 ^ k)
  refine ⟨k, _, rfl, rfl, by omega, hge.imp_right fun h => ⟨by omega, ?_⟩⟩
  exact (Nat.le_div_iff_mul_le (Nat.mul_pos hden (Nat.two_pow_pos k))).1 h

/-- **Rounding is correct**: up to the cap at infinity, a ratio lies between the two midpoints of
the magnitude it is rounded to, and strictly between them if the magnitude is odd. -/
theorem nearest_between_midpoints (num : Nat) {den : Nat} (hden : 0 < den) :
    ∃ m, nearest num den = min infinity m ∧
      lowerMidpoint m * den ≤ 2 * (num * 2 ^ stepBits) ∧
      2 * (num * 2 ^ stepBits) ≤ upperMidpoint m * den ∧
      (m % 2 = 1 → lowerMidpoint m * den < 2 * (num * 2 ^ stepBits) ∧
        2 * (num * 2 ^ stepBits) < upperMidpoint m * den) := by
  obtain ⟨k, s, hnearest, hs, hle, hk⟩ := exists_significand num hden
  have hunit : 0 < den * 2 ^ k := Nat.mul_pos hden (Nat.two_pow_pos k)
  obtain ⟨hlow, hhigh, hodd⟩ := roundHalfEven_bounds (num * 2 ^ stepBits) hunit
  rw [← hs] at hlow hhigh hodd
  generalize num * 2 ^ stepBits = scaled at *
  have hparity : (k * 2 ^ fractionBits + s) % 2 = s % 2 := by
    rw [fractionBits, Nat.pow_succ]
    omega
  have hupper : (2 * s + 1) * (den * 2 ^ k) ≤ upperMidpoint (k * 2 ^ fractionBits + s) * den := by
    rw [Nat.mul_comm den, ← Nat.mul_assoc]
    exact Nat.mul_le_mul_right den (le_upperMidpoint hle (hk.imp_right And.left))
  rw [Nat.add_mul, Nat.one_mul, Nat.mul_assoc] at hupper
  by_cases hedge : k = 0 ∨ 2 ^ fractionBits < s
  · have hlower : lowerMidpoint (k * 2 ^ fractionBits + s) * den ≤ (2 * s - 1) * (den * 2 ^ k) := by
      rw [Nat.mul_comm den, ← Nat.mul_assoc]
      exact Nat.mul_le_mul_right den (lowerMidpoint_le hle hedge)
    rw [Nat.sub_mul, Nat.one_mul, Nat.mul_assoc] at hlower
    refine ⟨_, hnearest, by omega, by omega, fun h => ?_⟩
    have hone : den * 2 ^ k ≤ s * (den * 2 ^ k) := Nat.le_mul_of_pos_left _ (by omega)
    have hstrict := hodd (by omega)
    omega
  · -- the least significand of its unit: the ratio was not rounded up to it
    obtain ⟨hge, hscaled⟩ := hk.resolve_left fun h => hedge (.inl h)
    obtain rfl : s = 2 ^ fractionBits := by omega
    have hlower : lowerMidpoint (k * 2 ^ fractionBits + 2 ^ fractionBits) * den
        ≤ 2 * (2 ^ fractionBits * (den * 2 ^ k)) := by
      rw [Nat.mul_comm den, ← Nat.mul_assoc, ← Nat.mul_assoc, Nat.mul_assoc 2]
      exact Nat.mul_le_mul_right den (lowerMidpoint_le_two_mul hle (.inr le_rfl))
    refine ⟨_, hnearest, by omega, by omega, fun h => ?_⟩
    rw [hparity] at h
    exact absurd h (by decide)

end Isolate.Binary64

namespace Isolate.Decimal

-- Powers of numbers are the built-in ones, as in the definitions.
attribute [local instance (2000)] instPowNat

open Binary64

/-! ## The nearest magnitude -/

/-- A decimal reads back as what `nearest` makes of it, up to the cap at infinity. -/
theorem exists_readsBack_nearest (d : Decimal) :
    ∃ m, nearest d.num d.den = min infinity m ∧ d.readsBack m = true := by
  have hden : 0 < d.den := Nat.pow_pos (by decide)
  obtain ⟨m, hm, hlow, hhigh, hodd⟩ := nearest_between_midpoints d.num hden
  have hscaled : d.num * 2 ^ (stepBits + 1) = 2 * (d.num * 2 ^ stepBits) := by
    rw [Nat.pow_succ, ← Nat.mul_assoc, Nat.mul_comm]
  refine ⟨m, hm, ?_⟩
  simp only [readsBack, hscaled]
  split
  · rw [Bool.and_eq_true, decide_eq_true_iff, decide_eq_true_iff]
    exact ⟨hlow, hhigh⟩
  · rw [Bool.and_eq_true, decide_eq_true_iff, decide_eq_true_iff]
    exact hodd (by omega)

/-- **A decimal that reads back as a finite magnitude is rounded to it.** -/
theorem nearest_eq_of_readsBack {d : Decimal} {m : Nat} (h : d.readsBack m = true)
    (hm : m < infinity) : nearest d.num d.den = m := by
  obtain ⟨m', hnearest, hback⟩ := exists_readsBack_nearest d
  obtain rfl := eq_of_readsBack h hback rfl
  rw [hnearest, Nat.min_eq_right (Nat.le_of_lt hm)]

/-! ## Exact values -/

/-- The exact value of a magnitude. -/
def valueOf (m : Nat) : ℚ := (steps m : ℚ) / (2 ^ stepBits : Nat)

theorem valueOf_strictMono : StrictMono valueOf := by
  intro m m' h
  have hpos : (0 : ℚ) < (2 ^ stepBits : Nat) := Nat.cast_pos.2 (Nat.two_pow_pos _)
  exact div_lt_div_of_pos_right (Nat.cast_lt.2 (steps_strictMono h)) hpos

theorem valueOf_lt_succ (m : Nat) : valueOf m < valueOf (m + 1) :=
  valueOf_strictMono (Nat.lt_succ_self m)

theorem valueOf_pred_lt {m : Nat} (h : 0 < m) : valueOf (m - 1) < valueOf m :=
  valueOf_strictMono (Nat.pred_lt h.ne')

theorem valueOf_zero : valueOf 0 = 0 := by rw [valueOf, steps_zero, Nat.cast_zero, zero_div]

theorem valueOf_nonneg (m : Nat) : 0 ≤ valueOf m := by
  rw [← valueOf_zero]
  exact valueOf_strictMono.monotone (Nat.zero_le m)

theorem valueOf_pos_iff {m : Nat} : 0 < valueOf m ↔ m ≠ 0 := by
  rw [← valueOf_zero, valueOf_strictMono.lt_iff_lt, Nat.pos_iff_ne_zero]

/-- What it means to read back, in terms of exact values. -/
theorem readsBack_iff_valueOf {d : Decimal} {m : Nat} :
    d.readsBack m = true ↔
      if m % 2 = 0 then
        valueOf (m - 1) + valueOf m ≤ 2 * d.value ∧ 2 * d.value ≤ valueOf m + valueOf (m + 1)
      else
        valueOf (m - 1) + valueOf m < 2 * d.value ∧ 2 * d.value < valueOf m + valueOf (m + 1) := by
  have hpos : (0 : ℚ) < (2 ^ stepBits : Nat) := Nat.cast_pos.2 (Nat.two_pow_pos _)
  have hscaled : d.value * (2 ^ (stepBits + 1) : Nat) = 2 * d.value * (2 ^ stepBits : Nat) := by
    rw [Nat.pow_succ, Nat.cast_mul]
    ring
  simp only [readsBack_iff, hscaled, lowerMidpoint, upperMidpoint, valueOf, Nat.cast_add,
    ← add_div, div_le_iff₀ hpos, div_lt_iff₀ hpos, le_div_iff₀ hpos, lt_div_iff₀ hpos]

/-! ## What is nearest -/

/-- A decimal is rounded to a magnitude when no other is as near, except that of two that are
equally near it is the even one. The magnitudes from infinity on count with the steps that they
would have, so a decimal that is rounded to a finite one is not too large for a double. -/
def RoundsTo (d : Decimal) (m : Nat) : Prop :=
  ∀ m', m' ≠ m →
    |d.value - valueOf m| < |d.value - valueOf m'| ∨
      |d.value - valueOf m| = |d.value - valueOf m'| ∧ m % 2 = 0

/-- Of two points, the left one is nearer to what lies left of the middle. -/
theorem abs_sub_lt_abs_sub_left {v a b : ℚ} (h : a < b) :
    |v - a| < |v - b| ↔ 2 * v < a + b := by
  have hfactor : (v - b) ^ 2 - (v - a) ^ 2 = (b - a) * (a + b - 2 * v) := by ring
  rw [← sq_lt_sq, ← sub_pos, hfactor, mul_pos_iff_of_pos_left (sub_pos.2 h), sub_pos]

/-- Of two points, the right one is nearer to what lies right of the middle. -/
theorem abs_sub_lt_abs_sub_right {v a b : ℚ} (h : a < b) :
    |v - b| < |v - a| ↔ a + b < 2 * v := by
  have hfactor : (v - a) ^ 2 - (v - b) ^ 2 = (b - a) * (2 * v - (a + b)) := by ring
  rw [← sq_lt_sq, ← sub_pos, hfactor, mul_pos_iff_of_pos_left (sub_pos.2 h), sub_pos]

theorem value_nonneg (d : Decimal) : 0 ≤ d.value :=
  mul_nonneg (Nat.cast_nonneg _) (zpow_nonneg (by norm_num) _)

/-- An even magnitude is at least as near as any other, an odd one is nearer. -/
theorem roundsTo_iff {d : Decimal} {m : Nat} :
    d.RoundsTo m ↔
      if m % 2 = 0 then ∀ m', m' ≠ m → |d.value - valueOf m| ≤ |d.value - valueOf m'|
      else ∀ m', m' ≠ m → |d.value - valueOf m| < |d.value - valueOf m'| := by
  by_cases heven : m % 2 = 0
  · simp only [RoundsTo, heven, and_true, if_true, ← le_iff_lt_or_eq]
  · simp only [RoundsTo, heven, and_false, or_false, if_false]

/-- No other magnitude is nearer than one whose two midpoints are on either side. -/
theorem forall_le_iff {v : ℚ} (hv : 0 ≤ v) {m : Nat} :
    (∀ m', m' ≠ m → |v - valueOf m| ≤ |v - valueOf m'|) ↔
      valueOf (m - 1) + valueOf m ≤ 2 * v ∧ 2 * v ≤ valueOf m + valueOf (m + 1) := by
  constructor
  · intro h
    have hright := h (m + 1) (Nat.succ_ne_self m)
    rw [← not_lt, abs_sub_lt_abs_sub_right (valueOf_lt_succ m), not_lt] at hright
    refine ⟨?_, hright⟩
    rcases Nat.eq_zero_or_pos m with rfl | hpos
    · -- nothing lies below zero
      rw [valueOf_zero]
      linarith
    · have hleft := h (m - 1) (Nat.pred_lt hpos.ne').ne
      rwa [← not_lt, abs_sub_lt_abs_sub_left (valueOf_pred_lt hpos), not_lt] at hleft
  · rintro ⟨hleft, hright⟩ m' hne
    rw [← not_lt]
    rcases Nat.lt_or_gt_of_ne hne with hlt | hgt
    · have hle : valueOf m' ≤ valueOf (m - 1) := valueOf_strictMono.monotone (by omega)
      rw [abs_sub_lt_abs_sub_left (valueOf_strictMono hlt)]
      linarith
    · have hle : valueOf (m + 1) ≤ valueOf m' := valueOf_strictMono.monotone hgt
      rw [abs_sub_lt_abs_sub_right (valueOf_strictMono hgt)]
      linarith

/-- All other magnitudes are less near than one whose two midpoints are strictly on either side. -/
theorem forall_lt_iff {v : ℚ} {m : Nat} (hm : 0 < m) :
    (∀ m', m' ≠ m → |v - valueOf m| < |v - valueOf m'|) ↔
      valueOf (m - 1) + valueOf m < 2 * v ∧ 2 * v < valueOf m + valueOf (m + 1) := by
  constructor
  · intro h
    have hright := h (m + 1) (Nat.succ_ne_self m)
    have hleft := h (m - 1) (Nat.pred_lt hm.ne').ne
    rw [abs_sub_lt_abs_sub_left (valueOf_lt_succ m)] at hright
    rw [abs_sub_lt_abs_sub_right (valueOf_pred_lt hm)] at hleft
    exact ⟨hleft, hright⟩
  · rintro ⟨hleft, hright⟩ m' hne
    rcases Nat.lt_or_gt_of_ne hne with hlt | hgt
    · have hle : valueOf m' ≤ valueOf (m - 1) := valueOf_strictMono.monotone (by omega)
      rw [abs_sub_lt_abs_sub_right (valueOf_strictMono hlt)]
      linarith
    · have hle : valueOf (m + 1) ≤ valueOf m' := valueOf_strictMono.monotone hgt
      rw [abs_sub_lt_abs_sub_left (valueOf_strictMono hgt)]
      linarith

/-- **A decimal reads back as the magnitude that it rounds to**, and as no other. -/
theorem roundsTo_iff_readsBack {d : Decimal} {m : Nat} :
    d.RoundsTo m ↔ d.readsBack m = true := by
  rw [readsBack_iff_valueOf, roundsTo_iff]
  split
  · exact forall_le_iff d.value_nonneg
  · exact forall_lt_iff (by omega)

/-! ## Very long numbers -/

/-- A number is less than the power of ten with as many zeros as it has digits before the point. -/
theorem value_lt_pow (d : Decimal) :
    d.value < (10 : ℚ) ^ (d.exponent + Int.ofNat (Nat.repr d.coefficient).length) := by
  have hlt : d.coefficient < 10 ^ (Nat.repr d.coefficient).length :=
    (Nat.length_repr_le_iff Nat.length_repr_pos).1 le_rfl
  have hcast : (d.coefficient : ℚ) < (10 : ℚ) ^ (Nat.repr d.coefficient).length := by
    exact_mod_cast hlt
  rw [value, zpow_add₀ (by norm_num), Int.ofNat_eq_natCast, zpow_natCast, mul_comm]
  exact mul_lt_mul_of_pos_left hcast (zpow_pos (by norm_num) _)

theorem pow_le_value {d : Decimal} (hd : d.coefficient ≠ 0) :
    (10 : ℚ) ^ (d.exponent + Int.ofNat (Nat.repr d.coefficient).length - 1) ≤ d.value := by
  have hlength : 0 < (Nat.repr d.coefficient).length := Nat.length_repr_pos
  have hle : 10 ^ ((Nat.repr d.coefficient).length - 1) ≤ d.coefficient := by
    rcases Nat.eq_zero_or_pos ((Nat.repr d.coefficient).length - 1) with hzero | hpos
    · rw [hzero]
      exact Nat.pos_of_ne_zero hd
    · by_contra hlt
      have hshort := (Nat.length_repr_le_iff hpos).2 (Nat.lt_of_not_le hlt)
      omega
  have hcast : (10 : ℚ) ^ ((Nat.repr d.coefficient).length - 1) ≤ d.coefficient := by
    exact_mod_cast hle
  have hexponent : d.exponent + Int.ofNat (Nat.repr d.coefficient).length - 1
      = d.exponent + ((Nat.repr d.coefficient).length - 1 : Nat) := by
    rw [Int.ofNat_eq_natCast]
    omega
  rw [hexponent, value, zpow_add₀ (by norm_num), zpow_natCast, mul_comm]
  exact mul_le_mul_of_nonneg_right hcast (zpow_nonneg (by norm_num) _)

/-- A decimal with no digit other than zero near the point reads back as zero. -/
theorem readsBack_zero_of_value_le {d : Decimal} (h : d.value ≤ (10 : ℚ) ^ (-331 : Int)) :
    d.readsBack 0 = true := by
  have hstep : ((2 ^ (stepBits + 1) : Nat) : ℚ) ≤ (10 : ℚ) ^ (331 : Nat) := by
    have hle : 2 ^ (stepBits + 1) ≤ 10 ^ 331 := by decide +kernel
    exact_mod_cast hle
  have hpos : (0 : ℚ) < (2 ^ (stepBits + 1) : Nat) := Nat.cast_pos.2 (Nat.two_pow_pos _)
  rw [readsBack_iff, if_pos rfl]
  generalize ((2 ^ (stepBits + 1) : Nat) : ℚ) = scale at *
  constructor
  · rw [lowerMidpoint, steps_zero, Nat.cast_zero]
    exact mul_nonneg d.value_nonneg hpos.le
  · have hone : (10 : ℚ) ^ (-331 : Int) * (10 : ℚ) ^ (331 : Nat) = 1 := by
      rw [← zpow_natCast, ← zpow_add₀ (by norm_num)]
      rfl
    have hupper : (upperMidpoint 0 : ℚ) = 1 := by
      rw [← Nat.cast_one]
      rfl
    rw [hupper, ← hone]
    exact mul_le_mul h hstep hpos.le (zpow_nonneg (by norm_num) _)

/-- A decimal that reads back as a finite magnitude has few digits before the point. -/
theorem value_lt_of_readsBack {d : Decimal} {m : Nat} (h : d.readsBack m = true)
    (hm : m < infinity) : d.value < (10 : ℚ) ^ (330 : Int) := by
  have hpos : (0 : ℚ) < (2 ^ (stepBits + 1) : Nat) := Nat.cast_pos.2 (Nat.two_pow_pos _)
  have hupper : upperMidpoint m ≤ 2 * steps infinity := by
    have hself : steps m ≤ steps infinity := steps_strictMono.monotone hm.le
    have hnext : steps (m + 1) ≤ steps infinity := steps_strictMono.monotone hm
    rw [upperMidpoint]
    omega
  have hlarge : 2 * steps infinity < 10 ^ 330 * 2 ^ (stepBits + 1) := by decide +kernel
  have hbound : (upperMidpoint m : ℚ) < (10 : ℚ) ^ (330 : Int) * (2 ^ (stepBits + 1) : Nat) := by
    have hcast := Nat.cast_lt (α := ℚ).2 (Nat.lt_of_le_of_lt hupper hlarge)
    rw [Nat.cast_mul, Nat.cast_pow] at hcast
    exact_mod_cast hcast
  have hvalue : d.value * (2 ^ (stepBits + 1) : Nat) ≤ upperMidpoint m := by
    rw [readsBack_iff] at h
    split at h
    · exact h.2
    · exact h.2.le
  exact lt_of_mul_lt_mul_right (hvalue.trans_lt hbound) hpos.le

end Isolate.Decimal

namespace Isolate.Number

open Binary64 Decimal

/-- **The shortcuts agree with the rounding.** -/
theorem magnitude_eq_nearest (d : Decimal) : magnitude d = nearest d.num d.den := by
  have hfinite : 0 < infinity := by decide
  rw [magnitude]
  split
  next hsmall =>
    refine (nearest_eq_of_readsBack (readsBack_zero_of_value_le ?_) hfinite).symm
    rcases hsmall with hzero | hsize
    · rw [value, hzero, Nat.cast_zero, zero_mul]
      exact zpow_nonneg (by norm_num) _
    · exact d.value_lt_pow.le.trans (zpow_le_zpow_right₀ (by norm_num) (by omega))
  next hsmall =>
    split
    next hsize =>
      obtain ⟨m, hnearest, hback⟩ := exists_readsBack_nearest d
      have hle := pow_le_value fun hzero => hsmall (.inl hzero)
      have hlarge : (10 : ℚ) ^ (330 : Int) ≤ d.value :=
        (zpow_le_zpow_right₀ (by norm_num) (by omega)).trans hle
      have hover : infinity ≤ m := by
        by_contra hlt
        exact absurd (value_lt_of_readsBack hback (Nat.lt_of_not_le hlt)) hlarge.not_gt
      rw [hnearest, Nat.min_eq_left hover]
    next => rfl

end Isolate.Number
