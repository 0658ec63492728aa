import Isolate.Proofs.Number.Numeral
import Isolate.Proofs.Number.Rounding

/-!
# The fewest digits

The multiples of a power of ten are a grid.  What reads back as a magnitude is an interval around
it, so if anything on a grid reads back, one of the two neighbours of the magnitude does, and that
is where `closest?` looks.  `shortest` goes from the coarsest grid to finer ones.  On the grid of
the seventeenth digit there is always something, since neighbouring magnitudes are further apart
than its units; so what is found has no more digits than anything else that reads back.

* `closest?_eq_none`, `closest?_spec` - what is looked for on one grid, and what is found;
* `leading_spec` - the power of ten of the leading digit;
* `closest?_seventeen` - seventeen digits do;
* `shortest_fewest` - **the shortest decimal has the fewest digits**, and none of as many is nearer;
* `exact_fewest` - so the exact text of a number has the fewest digits that read back.
-/

namespace Isolate.Decimal

-- Powers of numbers are the built-in ones, as in the definitions.
attribute [local instance (2000)] instPowNat

open Binary64

/-! ## Grids -/

/-- A magnitude in units of a power of ten, as a ratio: the numerator. -/
def gridNum (m : Nat) (e : Int) : Nat := steps m * 10 ^ (-e).toNat

/-- The denominator. -/
def gridDen (e : Int) : Nat := 2 ^ stepBits * 10 ^ e.toNat

theorem gridDen_pos (e : Int) : 0 < gridDen e :=
  Nat.mul_pos (Nat.two_pow_pos _) (Nat.pow_pos (by decide))

/-- One unit of the denominator. -/
def gridUnit (e : Int) : ℚ := (10 : ℚ) ^ e / gridDen e

theorem gridUnit_pos (e : Int) : 0 < gridUnit e :=
  div_pos (zpow_pos (by norm_num) _) (Nat.cast_pos.2 (gridDen_pos e))

theorem value_eq_units (c : Nat) (e : Int) :
    value ⟨c, e⟩ = ((c * gridDen e : Nat) : ℚ) * gridUnit e := by
  have hden : (gridDen e : ℚ) ≠ 0 := Nat.cast_ne_zero.2 (gridDen_pos e).ne'
  rw [gridUnit, Nat.cast_mul, mul_assoc, mul_div_cancel₀ _ hden, value]

theorem valueOf_eq_units (m : Nat) (e : Int) :
    valueOf m = (gridNum m e : ℚ) * gridUnit e := by
  have hpow : ((10 ^ (-e).toNat : Nat) : ℚ) * (10 : ℚ) ^ e = ((10 ^ e.toNat : Nat) : ℚ) := by
    have h := num_eq ⟨1, e⟩
    simp only [num, den, value, Nat.cast_one, one_mul] at h
    rw [h, mul_comm]
  have hparts : ((2 ^ stepBits : Nat) : ℚ) ≠ 0 := Nat.cast_ne_zero.2 (Nat.two_pow_pos _).ne'
  have hden : (gridDen e : ℚ) ≠ 0 := Nat.cast_ne_zero.2 (gridDen_pos e).ne'
  rw [gridUnit, ← mul_div_assoc, eq_div_iff hden, gridNum, gridDen, Nat.cast_mul, Nat.cast_mul,
    mul_assoc, hpow, valueOf, ← mul_assoc, div_mul_cancel₀ _ hparts]

theorem value_le_valueOf_iff {c m : Nat} {e : Int} :
    value ⟨c, e⟩ ≤ valueOf m ↔ c * gridDen e ≤ gridNum m e := by
  rw [value_eq_units, valueOf_eq_units m e, mul_le_mul_iff_of_pos_right (gridUnit_pos e),
    Nat.cast_le]

/-- How many whole units of a power of ten there are in a magnitude. -/
def gridFloor (m : Nat) (e : Int) : Nat := gridNum m e / gridDen e

/-- A magnitude lies between two neighbours on a grid. -/
theorem gridFloor_spec (m : Nat) (e : Int) :
    value ⟨gridFloor m e, e⟩ ≤ valueOf m ∧ valueOf m < value ⟨gridFloor m e + 1, e⟩ := by
  have hlow : gridFloor m e * gridDen e ≤ gridNum m e := Nat.div_mul_le_self ..
  have hhigh : gridNum m e < (gridFloor m e + 1) * gridDen e :=
    (Nat.div_lt_iff_lt_mul (gridDen_pos e)).1 (Nat.lt_succ_self _)
  constructor
  · exact value_le_valueOf_iff.2 hlow
  · rw [← not_le, value_le_valueOf_iff, not_le]
    exact hhigh

theorem value_mono {c c' : Nat} (e : Int) (h : c ≤ c') : value ⟨c, e⟩ ≤ value ⟨c', e⟩ :=
  mul_le_mul_of_nonneg_right (Nat.cast_le.2 h) (zpow_nonneg (by norm_num) _)

/-! ## What reads back on a grid -/

/-- What lies between two decimals that read back reads back, too. -/
theorem readsBack_of_between {a b d : Decimal} {m : Nat} (ha : a.readsBack m = true)
    (hb : b.readsBack m = true) (hle : a.value ≤ d.value) (hge : d.value ≤ b.value) :
    d.readsBack m = true := by
  rw [readsBack_iff_valueOf] at ha hb ⊢
  split
  next heven =>
    rw [if_pos heven] at ha hb
    exact ⟨by linarith [ha.1], by linarith [hb.2]⟩
  next hodd =>
    rw [if_neg hodd] at ha hb
    exact ⟨by linarith [ha.1], by linarith [hb.2]⟩

/-- If a decimal on a grid reads back, so does one of the two neighbours, on the same side. -/
theorem readsBack_neighbour {c m : Nat} {e : Int} (h : readsBack ⟨c, e⟩ m = true) :
    (c ≤ gridFloor m e → readsBack ⟨gridFloor m e, e⟩ m = true) ∧
      (gridFloor m e + 1 ≤ c → readsBack ⟨gridFloor m e + 1, e⟩ m = true) := by
  obtain ⟨hbelow, habove⟩ := gridFloor_spec m e
  have hexact := readsBack_exact m
  have hvalue := value_exact m
  rw [← valueOf] at hvalue
  rw [← hvalue] at hbelow habove
  constructor
  · intro hc
    exact readsBack_of_between h hexact (value_mono e hc) hbelow
  · intro hc
    exact readsBack_of_between hexact h habove.le (value_mono e hc)

theorem closest?_eq (m : Nat) (e : Int) :
    closest? m e =
      match readsBack ⟨gridFloor m e, e⟩ m, readsBack ⟨gridFloor m e + 1, e⟩ m with
      | true, true => some ⟨roundHalfEven (gridNum m e) (gridDen e), e⟩
      | true, false => some ⟨gridFloor m e, e⟩
      | false, true => some ⟨gridFloor m e + 1, e⟩
      | false, false => none := rfl

/-- A grid is left out only if nothing on it reads back. -/
theorem closest?_eq_none {m : Nat} {e : Int} (h : closest? m e = none) (c : Nat) :
    readsBack ⟨c, e⟩ m = false := by
  by_contra hc
  obtain ⟨hbelow, habove⟩ := readsBack_neighbour (Bool.eq_true_of_not_eq_false hc)
  rw [closest?_eq] at h
  rcases Nat.lt_or_ge (gridFloor m e) c with hlt | hge
  · rw [habove hlt] at h
    split at h <;> simp_all
  · rw [hbelow hge] at h
    split at h <;> simp_all

/-- No whole number of units is nearer than the rounded one. -/
theorem abs_roundHalfEven_le (num : Nat) {den : Nat} (hden : 0 < den) (c : Nat) :
    |((roundHalfEven num den * den : Nat) : ℚ) - num| ≤ |((c * den : Nat) : ℚ) - num| := by
  obtain ⟨hlow, hhigh, -⟩ := roundHalfEven_bounds num hden
  have hlow' : 2 * ((roundHalfEven num den * den : Nat) : ℚ) ≤ 2 * num + den := by
    exact_mod_cast hlow
  have hhigh' : 2 * (num : ℚ) ≤ 2 * ((roundHalfEven num den * den : Nat) : ℚ) + den := by
    exact_mod_cast hhigh
  have hhalf : |((roundHalfEven num den * den : Nat) : ℚ) - num| ≤ den / 2 :=
    abs_le.2 ⟨by linarith, by linarith⟩
  rcases Nat.lt_trichotomy c (roundHalfEven num den) with hlt | rfl | hgt
  · have hunit : ((c * den : Nat) : ℚ) + den ≤ (roundHalfEven num den * den : Nat) := by
      have hle := Nat.mul_le_mul_right den hlt
      rw [Nat.succ_mul] at hle
      exact_mod_cast hle
    exact hhalf.trans (le_abs.2 (.inr (by linarith)))
  · exact le_rfl
  · have hunit : ((roundHalfEven num den * den : Nat) : ℚ) + den ≤ (c * den : Nat) := by
      have hle := Nat.mul_le_mul_right den hgt
      rw [Nat.succ_mul] at hle
      exact_mod_cast hle
    exact hhalf.trans (le_abs.2 (.inl (by linarith)))

/-- How far a decimal on a grid is from a magnitude. -/
theorem abs_value_sub_valueOf (c m : Nat) (e : Int) :
    |value ⟨c, e⟩ - valueOf m| = |((c * gridDen e : Nat) : ℚ) - gridNum m e| * gridUnit e := by
  rw [value_eq_units, valueOf_eq_units m e, ← sub_mul, abs_mul, abs_of_pos (gridUnit_pos e)]

/-- A neighbour is found, and nothing on the grid that reads back is nearer. -/
theorem closest?_spec {m : Nat} {e : Int} {d : Decimal} (h : closest? m e = some d) :
    ∃ c, d = ⟨c, e⟩ ∧ c ≤ gridFloor m e + 1 ∧
      ∀ c', readsBack ⟨c', e⟩ m = true →
        |value ⟨c, e⟩ - valueOf m| ≤ |value ⟨c', e⟩ - valueOf m| := by
  obtain ⟨hle, hlt⟩ := gridFloor_spec m e
  rw [closest?_eq] at h
  split at h
  next =>
    refine ⟨_, (Option.some.inj h).symm, ?_, fun c' _ => ?_⟩
    · rcases roundHalfEven_eq_or (gridNum m e) (gridDen e) with hr | hr
      · exact hr.le.trans (Nat.le_succ _)
      · exact hr.le
    · rw [abs_value_sub_valueOf, abs_value_sub_valueOf]
      exact mul_le_mul_of_nonneg_right (abs_roundHalfEven_le _ (gridDen_pos e) c')
        (gridUnit_pos e).le
  next _ habove =>
    -- what reads back is not above
    refine ⟨_, (Option.some.inj h).symm, Nat.le_succ _, fun c' hc' => ?_⟩
    have hc : c' ≤ gridFloor m e := by
      by_contra hgt
      exact absurd ((readsBack_neighbour hc').2 (by omega)) (by simp [habove])
    have hmono := value_mono e hc
    rw [abs_of_nonpos (by linarith), abs_of_nonpos (by linarith)]
    linarith
  next hbelow _ =>
    refine ⟨_, (Option.some.inj h).symm, le_rfl, fun c' hc' => ?_⟩
    have hc : gridFloor m e + 1 ≤ c' := by
      by_contra hgt
      exact absurd ((readsBack_neighbour hc').1 (by omega)) (by simp [hbelow])
    have hmono := value_mono e hc
    rw [abs_of_pos (by linarith), abs_of_pos (by linarith)]
    linarith
  next => exact absurd h (by simp)

/-! ## The leading digit -/

theorem value_pow (n : Nat) (e : Int) : value ⟨10 ^ n, e⟩ = (10 : ℚ) ^ (e + n) := by
  rw [value, zpow_add₀ (by norm_num), zpow_natCast, mul_comm]
  push_cast
  rfl

theorem gridFloor_least (m : Nat) :
    gridFloor m (-324) = steps m * 10 ^ (324 : Nat) / 2 ^ stepBits := by
  have hup : (-(-324) : Int).toNat = 324 := rfl
  have hdown : (-324 : Int).toNat = 0 := rfl
  rw [gridFloor, gridNum, gridDen, hup, hdown, Nat.pow_zero, Nat.mul_one]

theorem leading_eq (m : Nat) :
    leading m = -324 + Int.ofNat (Nat.repr (gridFloor m (-324))).length - 1 := by
  rw [leading, gridFloor_least]
  omega

/-- The power of ten of the leading digit. -/
theorem leading_spec {m : Nat} (hm : 0 < m) :
    (10 : ℚ) ^ leading m ≤ valueOf m ∧ valueOf m < (10 : ℚ) ^ (leading m + 1) := by
  obtain ⟨hle, hlt⟩ := gridFloor_spec m (-324)
  have hfloor : gridFloor m (-324) ≠ 0 := by
    have hpositive : 1 ≤ steps m := steps_strictMono hm
    have hstep : 2 ^ stepBits ≤ 10 ^ (324 : Nat) := by decide +kernel
    have hlarge : 2 ^ stepBits ≤ steps m * 10 ^ (324 : Nat) :=
      hstep.trans (Nat.le_mul_of_pos_left _ hpositive)
    rw [gridFloor_least]
    exact (Nat.div_pos hlarge (Nat.two_pow_pos _)).ne'
  constructor
  · rw [leading_eq]
    exact (pow_le_value (d := ⟨gridFloor m (-324), -324⟩) hfloor).trans hle
  · have hlength : gridFloor m (-324) < 10 ^ (Nat.repr (gridFloor m (-324))).length :=
      (Nat.length_repr_le_iff Nat.length_repr_pos).1 le_rfl
    refine hlt.trans_le ((value_mono (-324) hlength).trans ?_)
    rw [value_pow, leading_eq, sub_add_cancel]
    rfl

/-! ## Seventeen digits -/

/-- Neighbouring magnitudes are further apart than two units of the seventeenth digit. -/
theorem two_mul_steps_lt {m : Nat} (hm : 0 < m) :
    2 * steps m + 10 ^ (16 : Nat) * steps (m - 1) < 10 ^ (16 : Nat) * steps (m + 1) := by
  have hbits : (2 : Nat) ^ fractionBits = 4503599627370496 := by norm_num [fractionBits]
  have htwice : (2 : Nat) ^ (fractionBits + 1) = 9007199254740992 := by norm_num [fractionBits]
  have hten : (10 : Nat) ^ (16 : Nat) = 10000000000000000 := by norm_num
  have hsteps : ∀ {k s : Nat}, s ≤ 9007199254740992 → k = 0 ∨ 4503599627370496 ≤ s →
      steps (k * 4503599627370496 + s) = s * 2 ^ k := by
    intro k s hs hk
    rw [← htwice] at hs
    rw [← hbits] at hk ⊢
    exact steps_significand hs hk
  rw [hten]
  rcases Nat.lt_or_ge m 9007199254740992 with hsmall | hlarge
  · have h := hsteps (k := 0) (s := m) (by omega) (.inl rfl)
    have hnext := hsteps (k := 0) (s := m + 1) (by omega) (.inl rfl)
    have hprev := hsteps (k := 0) (s := m - 1) (by omega) (.inl rfl)
    simp only [Nat.zero_mul, Nat.zero_add, Nat.pow_zero, Nat.mul_one] at h hnext hprev
    omega
  · obtain ⟨k, s, rfl, hge, hlt⟩ : ∃ k s, m = (k + 1) * 4503599627370496 + s ∧
        4503599627370496 ≤ s ∧ s < 9007199254740992 :=
      ⟨m / 4503599627370496 - 2, m % 4503599627370496 + 4503599627370496, by omega, by omega,
        by omega⟩
    have h := hsteps (k := k + 1) (s := s) hlt.le (.inr hge)
    have hnext := hsteps (k := k + 1) (s := s + 1) hlt (.inr (Nat.le_succ_of_le hge))
    have hpow : 2 ^ (k + 1) = 2 * 2 ^ k := by rw [Nat.pow_succ, Nat.mul_comm]
    have hpos : 0 < 2 ^ k := Nat.two_pow_pos k
    rcases Nat.eq_or_lt_of_le hge with rfl | hgt
    · -- below, the unit is half as large
      have hlast : (k + 1) * 4503599627370496 + 4503599627370496 - 1
          = k * 4503599627370496 + 9007199254740991 := by omega
      have hprev := hsteps (k := k) (s := 9007199254740991) (by omega) (.inr (by omega))
      rw [h, hlast, hprev, Nat.add_assoc, hnext, hpow]
      omega
    · have hlast : (k + 1) * 4503599627370496 + s - 1
          = (k + 1) * 4503599627370496 + (s - 1) := by omega
      have hprev := hsteps (k := k + 1) (s := s - 1) (by omega) (.inr (by omega))
      have hlarge : s * 2 ^ (k + 1) < 9007199254740992 * 2 ^ (k + 1) :=
        Nat.mul_lt_mul_of_pos_right hlt (Nat.two_pow_pos _)
      rw [h, hlast, hprev, Nat.add_assoc, hnext, Nat.sub_mul, Nat.add_mul, Nat.one_mul]
      omega

theorem two_mul_valueOf_lt {m : Nat} (hm : 0 < m) :
    2 * valueOf m < (10 : ℚ) ^ (16 : Nat) * (valueOf (m + 1) - valueOf (m - 1)) := by
  have hparts : (0 : ℚ) < (2 ^ stepBits : Nat) := Nat.cast_pos.2 (Nat.two_pow_pos _)
  have hcast : ((2 * steps m + 10 ^ (16 : Nat) * steps (m - 1) : Nat) : ℚ)
      < ((10 ^ (16 : Nat) * steps (m + 1) : Nat) : ℚ) := Nat.cast_lt.2 (two_mul_steps_lt hm)
  push_cast at hcast
  rw [valueOf, valueOf, valueOf, ← sub_div, ← mul_div_assoc, ← mul_div_assoc,
    div_lt_div_iff_of_pos_right hparts]
  linarith

/-- A decimal that does not read back, though it is not above the magnitude, is below the midpoint
below it. -/
theorem two_mul_value_le {d : Decimal} {m : Nat} (hd : d.readsBack m = false)
    (hle : d.value ≤ valueOf m) : 2 * d.value ≤ valueOf (m - 1) + valueOf m := by
  have hnext := valueOf_lt_succ m
  by_contra hgt
  rw [not_le] at hgt
  rw [← Bool.not_eq_true, readsBack_iff_valueOf] at hd
  split at hd
  · exact hd ⟨hgt.le, by linarith⟩
  · exact hd ⟨hgt, by linarith⟩

theorem le_two_mul_value {d : Decimal} {m : Nat} (hm : 0 < m) (hd : d.readsBack m = false)
    (hge : valueOf m ≤ d.value) : valueOf m + valueOf (m + 1) ≤ 2 * d.value := by
  have hprev := valueOf_pred_lt hm
  by_contra hlt
  rw [not_le] at hlt
  rw [← Bool.not_eq_true, readsBack_iff_valueOf] at hd
  split at hd
  · exact hd ⟨by linarith, hlt.le⟩
  · exact hd ⟨by linarith, hlt⟩

/-- **Seventeen digits do.** -/
theorem closest?_seventeen {m : Nat} (hm : 0 < m) : closest? m (leading m - 16) ≠ none := by
  intro hnone
  obtain ⟨hle, hlt⟩ := gridFloor_spec m (leading m - 16)
  have hbelow := two_mul_value_le (closest?_eq_none hnone _) hle
  have habove := le_two_mul_value hm (closest?_eq_none hnone _) hlt.le
  have hgap : value ⟨gridFloor m (leading m - 16) + 1, leading m - 16⟩
      = value ⟨gridFloor m (leading m - 16), leading m - 16⟩ + (10 : ℚ) ^ (leading m - 16) := by
    rw [value, value, Nat.cast_add, Nat.cast_one, add_mul, one_mul]
  have hunit : (10 : ℚ) ^ (leading m - 16) * (10 : ℚ) ^ (16 : Nat) = (10 : ℚ) ^ leading m := by
    rw [← zpow_natCast, ← zpow_add₀ (by norm_num), Nat.cast_ofNat, sub_add_cancel]
  have hwide := two_mul_valueOf_lt hm
  have hleading := (leading_spec hm).1
  linarith

/-! ## The fewest digits -/

/-- A decimal can be written with a number of significant digits. -/
def HasDigits (d : Decimal) (n : Nat) : Prop :=
  ∃ c e, c < 10 ^ n ∧ d.value = value ⟨c, e⟩

theorem HasDigits.mono {d : Decimal} {n n' : Nat} (h : d.HasDigits n) (hle : n ≤ n') :
    d.HasDigits n' := by
  obtain ⟨c, e, hc, hvalue⟩ := h
  exact ⟨c, e, hc.trans_le (Nat.pow_le_pow_right (by decide) hle), hvalue⟩

theorem hasDigits_congr {d d' : Decimal} {n : Nat} (h : d.value = d'.value) :
    d.HasDigits n ↔ d'.HasDigits n := by
  rw [HasDigits, HasDigits, h]

/-- A power of ten is written with one digit. -/
theorem hasDigits_of_le {c n : Nat} (e : Int) (h : c ≤ 10 ^ (n + 1)) :
    HasDigits ⟨c, e⟩ (n + 1) := by
  rcases Nat.eq_or_lt_of_le h with rfl | hlt
  · refine ⟨1, e + (n + 1 : Nat), Nat.one_lt_pow (Nat.succ_ne_zero n) (by decide), ?_⟩
    rw [value_pow, value, Nat.cast_one, one_mul]
  · exact ⟨c, e, hlt, rfl⟩

theorem gridFloor_lt {m : Nat} (hm : 0 < m) (k : Nat) :
    gridFloor m (leading m - k) < 10 ^ (k + 1) := by
  by_contra hge
  have hle := (value_mono (leading m - k) (not_lt.1 hge)).trans (gridFloor_spec m _).1
  have hexponent : leading m - k + (k + 1 : Nat) = leading m + 1 := by
    push_cast
    ring
  rw [value_pow, hexponent] at hle
  exact absurd (leading_spec hm).2 hle.not_gt

/-- If a decimal with some digits reads back, so does one on the grid of these digits that is at
least as near. -/
theorem exists_on_grid {d : Decimal} {m k : Nat} (hm : 0 < m) (hd : d.readsBack m = true)
    (hdigits : d.HasDigits (k + 1)) :
    ∃ c, readsBack ⟨c, leading m - k⟩ m = true ∧
      |value ⟨c, leading m - k⟩ - valueOf m| ≤ |d.value - valueOf m| := by
  obtain ⟨c, e, hc, hvalue⟩ := hdigits
  rcases le_or_gt (leading m - k) e with hle | hlt
  · -- the decimal itself is on the grid
    obtain ⟨n, hn⟩ := Int.le.dest hle
    have hsame : value ⟨c * 10 ^ n, leading m - k⟩ = d.value := by
      rw [hvalue, ← hn, value, value, zpow_add₀ (by norm_num), zpow_natCast]
      push_cast
      ring
    exact ⟨c * 10 ^ n, readsBack_of_value_eq hsame hd, by rw [hsame]⟩
  · -- the decimal is below the leading digit of the magnitude
    obtain ⟨hleading, -⟩ := leading_spec hm
    have hpow : value ⟨10 ^ k, leading m - k⟩ = (10 : ℚ) ^ leading m := by
      rw [value_pow, sub_add_cancel]
    have hbelow : d.value ≤ (10 : ℚ) ^ leading m := by
      rw [hvalue]
      refine (value_mono e hc.le).trans ?_
      rw [value_pow]
      exact zpow_le_zpow_right₀ (by norm_num) (by push_cast; omega)
    have hexact := value_exact m
    rw [← valueOf] at hexact
    refine ⟨10 ^ k, readsBack_of_between hd (readsBack_exact m) ?_ ?_, ?_⟩
    · rw [hpow]
      exact hbelow
    · rw [hpow, hexact]
      exact hleading
    · rw [hpow, abs_of_nonpos (by linarith), abs_of_nonpos (by linarith)]
      linarith

/-- The shortest decimal is what is found on the first grid on which there is something. -/
theorem exists_closest?_shortest {m : Nat} (hm : 0 < m) :
    ∃ k : Nat, k ≤ 16 ∧ closest? m (leading m - k) = some (shortest m) ∧
      ∀ j : Nat, j < k → closest? m (leading m - j) = none := by
  rw [shortest]
  cases hfound : (List.range 17).findSome? fun dropped =>
      closest? m (leading m - Int.ofNat dropped) with
  | none =>
    rw [List.findSome?_eq_none_iff] at hfound
    exact absurd (hfound 16 (by decide)) (closest?_seventeen hm)
  | some d =>
    obtain ⟨before, k, after, hsplit, hk, hbefore⟩ := List.findSome?_eq_some_iff.1 hfound
    have hmem : ∀ j, j < 17 ↔ j ∈ before ∨ j = k ∨ j ∈ after := by
      intro j
      rw [← List.mem_range, hsplit, List.mem_append, List.mem_cons]
    have hsorted := List.pairwise_lt_range (n := 17)
    rw [hsplit, List.pairwise_append, List.pairwise_cons] at hsorted
    have hlt : k < 17 := (hmem k).2 (.inr (.inl rfl))
    refine ⟨k, Nat.le_of_lt_succ hlt, hk, fun j hj => hbefore j ?_⟩
    rcases (hmem j).1 (hj.trans hlt) with h | rfl | h
    · exact h
    · exact absurd hj (lt_irrefl _)
    · exact absurd hj (hsorted.2.1.1 j h).not_gt

/-- **The shortest decimal has the fewest digits.** Whatever reads back as a magnitude is written
with no fewer digits than the shortest decimal, and if it is written with as many, it is not nearer
to the magnitude. -/
theorem shortest_fewest {m n : Nat} (hm : 0 < m) {d : Decimal} (hd : d.readsBack m = true)
    (hdigits : d.HasDigits n) :
    (shortest m).HasDigits n ∧
      ((shortest m).HasDigits (n - 1) ∨
        |(shortest m).value - valueOf m| ≤ |d.value - valueOf m|) := by
  obtain ⟨k, -, hk, hnone⟩ := exists_closest?_shortest hm
  obtain ⟨c, hshortest, hc, hnearest⟩ := closest?_spec hk
  have hfew : (shortest m).HasDigits (k + 1) := by
    rw [hshortest]
    exact hasDigits_of_le _ (hc.trans (gridFloor_lt hm k))
  cases n with
  | zero =>
    -- without digits there is zero only
    obtain ⟨c', e, hc', hvalue⟩ := hdigits
    obtain rfl : c' = 0 := Nat.lt_one_iff.1 hc'
    have hzero : d.value = (exact 0).value := by
      rw [hvalue, value_exact, value, steps_zero, Nat.cast_zero, zero_mul, zero_div]
    exact absurd (eq_of_readsBack hd (readsBack_exact 0) hzero) hm.ne'
  | succ n =>
    obtain ⟨c', hback, hnearer⟩ := exists_on_grid hm hd hdigits
    have hle : k ≤ n := by
      by_contra hlt
      exact absurd hback (by simp [closest?_eq_none (hnone n (not_le.1 hlt)) c'])
    refine ⟨hfew.mono (by omega), ?_⟩
    rcases Nat.eq_or_lt_of_le hle with rfl | hlt
    · rw [hshortest]
      exact .inr ((hnearest c' hback).trans hnearer)
    · exact .inl (hfew.mono hlt)

end Isolate.Decimal

namespace Isolate.Number

open Binary64 Decimal

/-- **The exact text of a number has the fewest digits that read back.** -/
theorem exact_fewest {x : Float} {negative : Bool} {m : Nat} (hc : classify x = .finite negative m)
    (hm : m ≠ 0) :
    ∃ cs d, (exact x).toList = (sign negative).toList ++ cs ∧ readDecimal? cs = some d ∧
      d.RoundsTo m ∧ ∀ (d' : Decimal) (n : Nat), d'.RoundsTo m → d'.HasDigits n →
        d.HasDigits n ∧
          (d.HasDigits (n - 1) ∨ |d.value - valueOf m| ≤ |d'.value - valueOf m|) := by
  obtain ⟨d, hread, hvalue⟩ := exists_readDecimal?_text layout (coefficient_shortest_ne_zero hm)
  rw [exact_of_classify hm hc, String.toList_append]
  refine ⟨_, d, rfl, hread, ?_, fun d' n hd' hn => ?_⟩
  · exact roundsTo_iff_readsBack.2 (readsBack_of_value_eq hvalue (readsBack_shortest m))
  · have hfewest := shortest_fewest (Nat.pos_of_ne_zero hm) (roundsTo_iff_readsBack.1 hd') hn
    rw [hasDigits_congr hvalue, hasDigits_congr hvalue, hvalue]
    exact hfewest

end Isolate.Number
