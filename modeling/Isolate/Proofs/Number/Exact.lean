import Isolate.Number.Binary64
import Mathlib

/-!
# Exact values of doubles

A finite double is a signed count of steps.  Greater magnitudes have more steps
(`steps_strictMono`), so a double that is not zero is determined by its exact value, and a double
stands for a whole number exactly if its value is one.

* `integer?_eq_some_iff` - doubles that stand for a whole number;
* `eq_of_rational?` - doubles of the same value are the same, except for two zeros.
-/

namespace Isolate.Binary64

/-! ## Steps -/

theorem steps_lt_steps_succ (m : Nat) : steps m < steps (m + 1) := by
  have hbits : (2 : Nat) ^ fractionBits = 4503599627370496 := by norm_num [fractionBits]
  unfold steps
  rw [hbits]
  by_cases hlt : m + 1 < 4503599627370496
  · rw [if_pos (by omega), if_pos hlt]
    omega
  · rw [if_neg hlt]
    by_cases hm : m < 4503599627370496
    · -- the first magnitude with an exponent
      have hone : m + 1 = 4503599627370496 := by omega
      rw [if_pos hm, hone]
      norm_num
      omega
    · rw [if_neg hm]
      set q := m / 4503599627370496 with hq
      have hq1 : 1 ≤ q := by omega
      by_cases hcarry : m % 4503599627370496 + 1 < 4503599627370496
      · have hdiv : (m + 1) / 4503599627370496 = q := by omega
        have hmod : (m + 1) % 4503599627370496 = m % 4503599627370496 + 1 := by omega
        rw [hdiv, hmod]
        exact Nat.mul_lt_mul_of_pos_right (by omega) (by positivity)
      · -- a carry out of the fraction raises the exponent
        have hdiv : (m + 1) / 4503599627370496 = q + 1 := by omega
        have hmod : (m + 1) % 4503599627370496 = 0 := by omega
        have hpow : 2 ^ (q + 1 - 1) = 2 * 2 ^ (q - 1) := by
          rw [← pow_succ']
          congr 1
          omega
        rw [hdiv, hmod, hpow, Nat.add_zero, ← Nat.mul_assoc]
        exact Nat.mul_lt_mul_of_pos_right (by omega) (by positivity)

/-- **Greater magnitudes have more steps.** -/
theorem steps_strictMono : StrictMono steps := strictMono_nat_of_lt_succ steps_lt_steps_succ

theorem steps_zero : steps 0 = 0 := rfl

/-! ## Values -/

/-- A finite double has a sign and a magnitude. -/
theorem exists_classify_of_isFinite {x : Float} (h : isFinite x = true) :
    ∃ negative m, classify x = .finite negative m := by
  unfold isFinite at h
  split at h
  · rename_i negative m hc
    exact ⟨negative, m, hc⟩
  · exact absurd h (by simp)

theorem isFinite_of_classify {x : Float} {negative : Bool} {m : Nat}
    (h : classify x = .finite negative m) : isFinite x = true := by
  rw [isFinite, h]

/-- The magnitudes of finite doubles lie below infinity. -/
theorem lt_infinity_of_classify {x : Float} {negative : Bool} {m : Nat}
    (h : classify x = .finite negative m) : m < infinity := by
  simp only [classify] at h
  split at h
  · obtain ⟨-, rfl⟩ := Class.finite.inj h
    assumption
  · split at h <;> exact absurd h (by simp)

/-- Only finite doubles have a value. -/
theorem exists_classify_of_rational? {x : Float} {q : ℚ} (h : rational? x = some q) :
    ∃ negative m, classify x = .finite negative m := by
  cases hc : classify x with
  | finite negative m => exact ⟨negative, m, rfl⟩
  | infinite negative => simp [rational?, hc] at h
  | nan => simp [rational?, hc] at h

theorem rational?_of_classify {x : Float} {negative : Bool} {m : Nat}
    (h : classify x = .finite negative m) :
    rational? x
      = some ((if negative then -(steps m : ℚ) else (steps m : ℚ)) / (2 ^ stepBits : Nat)) := by
  rw [rational?, h]
  simp only [Rat.mkRat_eq_div]
  cases negative <;> rfl

theorem isSome_rational?_of_isFinite {x : Float} (h : isFinite x = true) :
    ∃ q, rational? x = some q := by
  obtain ⟨negative, m, hc⟩ := exists_classify_of_isFinite h
  exact ⟨_, rational?_of_classify hc⟩

/-- The whole number among signed counts of parts, where a whole is made of some number of parts. -/
theorem wholeOf_eq_some_iff {count parts : Nat} (hparts : 0 < parts) {negative : Bool} {n : Int} :
    (if count % parts = 0 then
      some (if negative then -Int.ofNat (count / parts) else Int.ofNat (count / parts))
      else none) = some n ↔
      (if negative then -(count : ℚ) else (count : ℚ)) / parts = n := by
  have hpos : (0 : ℚ) < parts := by exact_mod_cast hparts
  have hpos' : (parts : Int) ≠ 0 := by exact_mod_cast hparts.ne'
  -- as an equation between whole numbers
  have hcast : (if negative then -(count : ℚ) else (count : ℚ)) / parts = n ↔
      (if negative then -(count : Int) else (count : Int)) = n * parts := by
    rw [div_eq_iff hpos.ne']
    cases negative <;> simp only [Bool.false_eq_true, if_false, if_true] <;> norm_cast
  rw [hcast]
  by_cases hmod : count % parts = 0
  · obtain ⟨k, rfl⟩ := Nat.dvd_of_mod_eq_zero hmod
    rw [if_pos hmod, Nat.mul_div_cancel_left k hparts, Option.some.injEq, Nat.cast_mul, mul_comm,
      ← neg_mul, ← ite_mul, mul_left_inj' hpos']
    rfl
  · rw [if_neg hmod]
    refine ⟨fun h => absurd h (by simp), fun h => absurd ?_ hmod⟩
    have hdvd : (parts : Int) ∣ count := by
      cases negative with
      | false => exact ⟨n, by simpa [mul_comm] using h⟩
      | true => exact ⟨-n, by rw [if_pos rfl] at h; rw [mul_neg, mul_comm, ← h, neg_neg]⟩
    exact Nat.mod_eq_zero_of_dvd (by exact_mod_cast hdvd)

/-- A double stands for a whole number exactly if that is its value. -/
theorem integer?_eq_some_iff {x : Float} {n : Int} :
    integer? x = some n ↔ rational? x = some (n : ℚ) := by
  cases hc : classify x with
  | finite negative m =>
    rw [rational?_of_classify hc, Option.some.injEq, integer?, hc]
    exact wholeOf_eq_some_iff (Nat.pow_pos (by decide))
  | infinite negative => simp [integer?, rational?, hc]
  | nan => simp [integer?, rational?, hc]

/-- The bits of a finite double are those of its magnitude, below its sign. -/
theorem toNat_toBits_of_classify {x : Float} {negative : Bool} {m : Nat}
    (h : classify x = .finite negative m) :
    x.toBits.toNat = m + if negative then 2 ^ magnitudeBits else 0 := by
  have hlt : x.toBits.toNat < 2 ^ 64 := x.toBits.toNat_lt
  simp only [classify] at h
  split at h
  · obtain ⟨rfl, rfl⟩ := Class.finite.inj h
    have htwice : (2 : Nat) ^ 64 = 2 * 2 ^ magnitudeBits := by norm_num [magnitudeBits]
    generalize (2 : Nat) ^ magnitudeBits = half at *
    by_cases hhalf : half ≤ x.toBits.toNat
    · rw [decide_eq_true hhalf, if_pos rfl, Nat.mod_eq_sub_mod hhalf, Nat.mod_eq_of_lt (by omega)]
      omega
    · rw [decide_eq_false hhalf, if_neg (by simp), Nat.mod_eq_of_lt (by omega), Nat.add_zero]
  · split at h <;> exact absurd h (by simp)

/-- A finite double is determined by its sign and its magnitude. -/
theorem eq_of_classify {x y : Float} {negative : Bool} {m : Nat}
    (hx : classify x = .finite negative m) (hy : classify y = .finite negative m) : x = y := by
  have hbits := (toNat_toBits_of_classify hx).trans (toNat_toBits_of_classify hy).symm
  exact Float.toBits_inj.1 (UInt64.toNat_inj.1 hbits)

/-- Doubles of the same value, other than zero, have the same sign and the same magnitude. -/
theorem classify_eq_of_rational? {x y : Float} {q : ℚ} (hx : rational? x = some q)
    (hy : rational? y = some q) (hq : q ≠ 0) : classify x = classify y := by
  obtain ⟨negative, m, hcx⟩ := exists_classify_of_rational? hx
  obtain ⟨negative', m', hcy⟩ := exists_classify_of_rational? hy
  rw [rational?_of_classify hcx, Option.some.injEq] at hx
  rw [rational?_of_classify hcy, Option.some.injEq] at hy
  have hpos : (0 : ℚ) < (2 ^ stepBits : Nat) := Nat.cast_pos.2 (Nat.pow_pos (by decide))
  have hsame := hx.trans hy.symm
  rw [div_left_inj' hpos.ne'] at hsame
  have hm : (0 : ℚ) ≤ steps m := Nat.cast_nonneg _
  have hm' : (0 : ℚ) ≤ steps m' := Nat.cast_nonneg _
  have hne : (steps m : ℚ) ≠ 0 := by
    rintro hzero
    apply hq
    rw [← hx, hzero, neg_zero, ite_self, zero_div]
  have hsteps : steps m = steps m' ∧ negative = negative' := by
    cases negative <;> cases negative' <;>
      simp only [Bool.false_eq_true, if_false, if_true, neg_inj, Nat.cast_inj] at hsame
    · exact ⟨hsame, rfl⟩
    · exact absurd (le_antisymm (by linarith) hm) hne
    · exact absurd (le_antisymm (by linarith) hm) hne
    · exact ⟨hsame, rfl⟩
  rw [hcx, hcy, steps_strictMono.injective hsteps.1, hsteps.2]

/-- **Doubles of the same value, other than zero, are the same.** -/
theorem eq_of_rational? {x y : Float} {q : ℚ} (hx : rational? x = some q)
    (hy : rational? y = some q) (hq : q ≠ 0) : x = y := by
  obtain ⟨negative, m, hc⟩ := exists_classify_of_rational? hx
  exact eq_of_classify hc (classify_eq_of_rational? hx hy hq ▸ hc)

end Isolate.Binary64
