import Isolate.Proofs.Distinct
import Isolate.Proofs.Symbolic.Factor
import Mathlib.Algebra.MvPolynomial.Rename
import Mathlib.Algebra.Order.Group.Int

/-!
# Values of fractions

A fraction has a value in a field that holds the polynomials.  The operations on fractions are those
of the field; a sum is multiplied out only after its common powers are set aside, and then no
exponent is negative.  The coefficient is zero exactly if the value is.

* `Fraction.value_mul`, `Fraction.pow?_spec`, `Fraction.sum_spec` - the operations;
* `Fraction.isZero_iff` - fractions that are zero.
-/

namespace Isolate.Symbolic

open MvPolynomial

variable {F : Type} [Field F] {φ : MvPolynomial ℕ ℚ →+* F}

theorem map_C_eq_cast (φ : MvPolynomial ℕ ℚ →+* F) (c : ℚ) : φ (C c) = c :=
  eq_ratCast (φ.comp C) c

namespace Fraction

/-- The value of a fraction. -/
noncomputable def value (φ : MvPolynomial ℕ ℚ →+* F) (f : Fraction) : F :=
  f.coefficient * (f.factors.map (Factor.value φ)).prod

/-- The bases of the factors are different canonical polynomials in order. -/
abbrev Proper (f : Fraction) : Prop := Factor.Reduced f.factors

variable {f g : Fraction}

theorem value_const (c : ℚ) : (const c).value φ = c := mul_one _

theorem proper_const (c : ℚ) : (const c).Proper := Factor.reduced_nil

theorem value_of_isZero (h : f.isZero = true) : f.value φ = 0 := by
  rw [value, beq_iff_eq.1 h, Rat.cast_zero, zero_mul]

/-- A single power of a polynomial. -/
theorem proper_factor {h : Factor} (hh : h.Regular) : Proper ⟨1, [h]⟩ :=
  Factor.reduced_cons.2 ⟨List.forall_mem_nil _, hh, Factor.reduced_nil⟩

theorem value_factor (h : Factor) : value φ ⟨1, [h]⟩ = h.value φ := by
  rw [value, List.map_singleton, List.prod_singleton, Rat.cast_one, one_mul]

theorem value_powers (fs : List Factor) (n : ℤ) :
    ((fs.map fun g => Factor.mk g.base (g.exponent * n)).map (Factor.value φ)).prod =
      (fs.map (Factor.value φ)).prod ^ n := by
  induction fs with
  | nil => exact (one_zpow n).symm
  | cons g fs ih =>
    rw [List.map_cons, List.map_cons, List.prod_cons, ih, List.map_cons, List.prod_cons, mul_zpow,
      Factor.value, Factor.value, zpow_mul]

theorem zpow_eq_natAbs (c : F) (n : ℤ) :
    c ^ n = if n < 0 then (c ^ n.natAbs)⁻¹ else c ^ n.natAbs := by
  by_cases hn : n < 0
  · rw [if_pos hn, ← zpow_natCast, ← zpow_neg, Int.ofNat_natAbs_of_nonpos hn.le, neg_neg]
  · rw [if_neg hn, ← zpow_natCast, Int.natAbs_of_nonneg (not_lt.1 hn)]

variable [CharZero F]

/-- **A fraction is zero exactly if its value is.** -/
theorem isZero_iff (hφ : Function.Injective φ) (hf : f.Proper) :
    f.isZero = true ↔ f.value φ = 0 := by
  have hprod := Factor.prod_value_ne_zero hφ hf.regular
  rw [isZero, beq_iff_eq, value, mul_eq_zero, or_iff_left hprod, Rat.cast_eq_zero]

/-! ## Products and powers -/

/-- What is needed of the second factor of a product: its bases need not be in order. -/
theorem mul_spec (hφ : Function.Injective φ) (hf : f.Proper) (hg : ∀ h ∈ g.factors, h.Regular) :
    (f.mul g).Proper ∧ (f.mul g).value φ = f.value φ * g.value φ := by
  rw [mul]
  split
  next hzero =>
    refine ⟨proper_const 0, ?_⟩
    rw [value_const, Rat.cast_zero]
    rcases Bool.or_eq_true_iff.1 hzero with h | h
    · rw [value_of_isZero h, zero_mul]
    · rw [value_of_isZero h, mul_zero]
  next =>
    obtain ⟨hreduced, hvalue⟩ := Factor.joinAll_spec hφ hg hf
    refine ⟨hreduced, ?_⟩
    rw [value, hvalue, value, value, Rat.cast_mul]
    ring

theorem proper_mul (hφ : Function.Injective φ) (hf : f.Proper) (hg : g.Proper) :
    (f.mul g).Proper :=
  (mul_spec hφ hf hg.regular).1

theorem value_mul (hφ : Function.Injective φ) (hf : f.Proper) (hg : g.Proper) :
    (f.mul g).value φ = f.value φ * g.value φ :=
  (mul_spec hφ hf hg.regular).2

/-- **A power of a fraction**, provided that no power of zero is negative. -/
theorem pow?_spec (hf : f.Proper) {n : ℤ}
    (hn : n < 0 → f.value φ ≠ 0) :
    ∃ g, f.pow? n = some g ∧ g.Proper ∧ g.value φ = f.value φ ^ n := by
  rw [pow?]
  by_cases hzero : n = 0
  · rw [if_pos hzero]
    exact ⟨const 1, rfl, proper_const 1, by rw [value_const, hzero, zpow_zero, Rat.cast_one]⟩
  · rw [if_neg hzero]
    by_cases hf0 : f.isZero = true
    · have hvalue : f.value φ = 0 := value_of_isZero hf0
      rw [if_pos hf0, if_neg fun h => hn h hvalue]
      exact ⟨f, rfl, hf, by rw [hvalue, zero_zpow n hzero]⟩
    · rw [if_neg hf0]
      refine ⟨_, rfl, ⟨?_, ?_⟩, ?_⟩
      · exact List.pairwise_map.2 hf.ordered
      · intro g hg
        obtain ⟨h, hh, rfl⟩ := List.mem_map.1 hg
        exact (hf.regular h hh).withExponent _
      · rw [value, value_powers, value, mul_zpow, zpow_eq_natAbs (f.coefficient : F)]
        congr 1
        split
        next => rw [Rat.cast_inv, Rat.cast_pow]
        next => rw [Rat.cast_pow]

/-! ## Polynomials -/

theorem regular_symbol (index : ℕ) (e : ℤ) : Factor.Regular ⟨.symbol index, e⟩ :=
  ⟨Polynomial.canonical_symbol index, List.cons_ne_nil _ _⟩

omit [CharZero F] in
theorem value_symbol (index : ℕ) : (symbol index).value φ = φ (X index) := by
  rw [symbol, value_factor, Factor.value, Polynomial.toMv_symbol, zpow_one]

theorem proper_symbol (index : ℕ) : (symbol index).Proper :=
  proper_factor (regular_symbol index 1)

theorem monomial_cons (e : ℕ) (rest : Exponents) :
    (monomial (Exponents.powers (e :: rest)) 1 : MvPolynomial ℕ ℚ) =
      X 0 ^ e * rename Nat.succ (monomial rest.powers 1) := by
  have hpowers : Exponents.powers (e :: rest) =
      Finsupp.single 0 e + (Exponents.powers rest).mapDomain Nat.succ := by
    ext i
    rw [Exponents.powers_apply, Finsupp.add_apply]
    cases i with
    | zero =>
      have hout : (0 : ℕ) ∉ Set.range Nat.succ := by simp
      simp [Finsupp.mapDomain_of_notMem_range _ _ hout]
    | succ i =>
      rw [Finsupp.mapDomain_apply Nat.succ_injective, Exponents.powers_apply]
      simp
  rw [rename_monomial, X_pow_eq_monomial, monomial_mul, one_mul, hpowers]

/-- Powers of symbols, which are numbered from some number on. -/
theorem symbols_spec (hφ : Function.Injective φ) (index : ℕ) (e : Exponents) :
    (symbols index e).Proper ∧
      (symbols index e).value φ = φ (rename (index + ·) (monomial e.powers 1)) := by
  induction e generalizing index with
  | nil =>
    refine ⟨proper_const 1, ?_⟩
    rw [symbols, value_const, Exponents.powers_nil]
    simp
  | cons e rest ih =>
    obtain ⟨hothers, hvalue⟩ := ih (index + 1)
    have hshift : rename (index + ·) (monomial (Exponents.powers (e :: rest)) (1 : ℚ)) =
        X index ^ e * rename (index + 1 + ·) (monomial (Exponents.powers rest) 1) := by
      have hcomp : (index + ·) ∘ Nat.succ = (index + 1 + ·) := by
        funext i
        simp only [Function.comp_apply]
        omega
      rw [monomial_cons, map_mul, map_pow, rename_X, rename_rename, hcomp]
      rfl
    rw [symbols, hshift, map_mul, ← hvalue]
    by_cases he : e = 0
    · rw [if_pos he, he, pow_zero, map_one, one_mul]
      exact ⟨hothers, rfl⟩
    · rw [if_neg he]
      have hfactor := proper_factor (regular_symbol index e)
      refine ⟨proper_mul hφ hfactor hothers, ?_⟩
      rw [value_mul hφ hfactor hothers, value_factor, Factor.value, Polynomial.toMv_symbol,
        zpow_natCast, map_pow]

/-- **A polynomial as a fraction.** -/
theorem ofPolynomial_spec (hφ : Function.Injective φ) {p : Polynomial} (hp : p.Canonical) :
    (ofPolynomial p).Proper ∧ (ofPolynomial p).value φ = φ p.toMv := by
  rw [ofPolynomial]
  by_cases hzero : p.isZero = true
  · rw [if_pos hzero, (Polynomial.isZero_iff hp).1 hzero, map_zero, value_const, Rat.cast_zero]
    exact ⟨proper_const 0, rfl⟩
  · have hne : p ≠ [] := fun h => hzero (by rw [h]; rfl)
    have hleading := hp.leading_ne_zero hne
    have hprimitive := Polynomial.toMv_primitive hleading
    obtain ⟨hsymbols, hvalue⟩ := symbols_spec hφ 0 p.content
    have hcontent : (symbols 0 p.content).value φ = φ (monomial p.content.powers 1) := by
      have hid : (0 + · : ℕ → ℕ) = id := funext Nat.zero_add
      rw [hvalue, hid, rename_id_apply]
    rw [if_neg hzero]
    dsimp only
    generalize hpart : (if p.primitive = .const 1 then const p.leading
      else ⟨p.leading, [⟨p.primitive, 1⟩]⟩ : Fraction) = part
    have hpartSpec : part.Proper ∧ part.value φ = p.leading * φ p.primitive.toMv := by
      subst hpart
      split
      next hone =>
        rw [value_const, hone, Polynomial.toMv_const, C_1, map_one, mul_one]
        exact ⟨proper_const _, rfl⟩
      next =>
        have hbase : p.primitive ≠ [] := by
          intro h
          rw [h, Polynomial.toMv_nil, mul_zero, hp.toMv_eq_zero_iff] at hprimitive
          exact hne hprimitive
        refine ⟨Factor.reduced_cons.2 ⟨List.forall_mem_nil _,
          ⟨Polynomial.canonical_primitive p, hbase⟩, Factor.reduced_nil⟩, ?_⟩
        rw [value, List.map_singleton, List.prod_singleton, Factor.value, zpow_one]
    refine ⟨proper_mul hφ hsymbols hpartSpec.1, ?_⟩
    rw [value_mul hφ hsymbols hpartSpec.1, hcontent, hpartSpec.2, hprimitive, ← map_C_eq_cast φ,
      ← map_mul, ← map_mul, ← mul_assoc, mul_comm (monomial _ 1), C_mul_monomial, mul_one]

omit [CharZero F] in
/-- **A fraction multiplied out**, provided that no exponent is negative. -/
theorem expanded_spec (hf : f.Proper) (hexponents : ∀ g ∈ f.factors, 0 ≤ g.exponent) :
    f.expanded.Trimmed ∧ φ f.expanded.toMv = f.value φ := by
  have hfactors : ∀ g ∈ f.factors, g.Regular ∧ 0 ≤ g.exponent := fun g hg =>
    ⟨hf.regular g hg, hexponents g hg⟩
  have hvalue : f.value φ = φ (Polynomial.toMv (.const f.coefficient)) *
      (f.factors.map (Factor.value φ)).prod := by
    rw [Polynomial.toMv_const, map_C_eq_cast, value]
  rw [hvalue]
  refine foldl_prod (Q := Polynomial.Trimmed) (g := fun p => φ p.toMv) (fun g p hg hp => ?_)
    hfactors (Polynomial.canonical_const f.coefficient).trimmed
  have hbase := hg.1.canonical.trimmed
  have hpower := Polynomial.canonical_pow hbase g.exponent.toNat
  have hfactor : φ g.base.toMv ^ g.exponent.toNat = g.value φ := by
    rw [Factor.value, ← zpow_natCast, Int.toNat_of_nonneg hg.2]
  refine ⟨(Polynomial.canonical_mul hp hpower.trimmed).trimmed, ?_⟩
  rw [Polynomial.toMv_mul, Polynomial.toMv_pow hbase, map_mul, map_pow, hfactor, mul_comm]

/-! ## Sums -/

theorem join_spec (hf : f.Proper) {gs : List Fraction} (hgs : ∀ g ∈ gs, g.Proper) :
    (∀ g ∈ f.join gs, g.Proper) ∧
      ((f.join gs).map (value φ)).sum = f.value φ + (gs.map (value φ)).sum := by
  induction gs with
  | nil => exact ⟨List.forall_mem_singleton.2 hf, rfl⟩
  | cons g gs ih =>
    obtain ⟨hg, hothers⟩ := List.forall_mem_cons.1 hgs
    rw [join]
    split
    next hsame =>
      refine ⟨List.forall_mem_cons.2 ⟨hg, hothers⟩, ?_⟩
      rw [List.map_cons, List.sum_cons, List.map_cons, List.sum_cons, value, Rat.cast_add, add_mul,
        add_assoc, add_left_comm, hsame]
      rw [value, value, hsame]
    next =>
      obtain ⟨hproper, hvalue⟩ := ih hothers
      refine ⟨List.forall_mem_cons.2 ⟨hg, hproper⟩, ?_⟩
      rw [List.map_cons, List.sum_cons, hvalue, List.map_cons, List.sum_cons, add_left_comm]

theorem joinAll_spec {fs gs : List Fraction} (hfs : ∀ f ∈ fs, f.Proper)
    (hgs : ∀ g ∈ gs, g.Proper) :
    (∀ g ∈ fs.foldl (fun gs f => f.join gs) gs, g.Proper) ∧
      ((fs.foldl (fun gs f => f.join gs) gs).map (value φ)).sum =
        (gs.map (value φ)).sum + (fs.map (value φ)).sum := by
  refine foldl_sum (P := Proper) (Q := fun gs : List Fraction => ∀ g ∈ gs, g.Proper)
    (f := value φ) (g := fun gs => (gs.map (value φ)).sum) (fun f gs hf hgs => ?_) hfs hgs
  exact join_spec hf hgs

omit [CharZero F] in
theorem sum_filter_isZero (fs : List Fraction) :
    ((fs.filter fun f => !f.isZero).map (value φ)).sum = (fs.map (value φ)).sum :=
  sum_filter fun _ _ h => value_of_isZero (by simpa using h)

/-! ### Common powers -/

theorem foldl_min_le (e : ℤ) (rest : List ℤ) :
    rest.foldl min e ≤ e ∧ ∀ x ∈ rest, rest.foldl min e ≤ x := by
  induction rest generalizing e with
  | nil => simp
  | cons a rest ih =>
    obtain ⟨hle, hothers⟩ := ih (min e a)
    exact ⟨hle.trans (min_le_left e a),
      List.forall_mem_cons.2 ⟨hle.trans (min_le_right e a), hothers⟩⟩

/-- The least of some exponents. -/
def leastOf : List ℤ → ℤ
  | [] => 0
  | e :: rest => rest.foldl min e

theorem leastOf_le {es : List ℤ} {e : ℤ} (h : e ∈ es) : leastOf es ≤ e := by
  cases es with
  | nil => simp at h
  | cons a rest =>
    obtain ⟨hle, hothers⟩ := foldl_min_le a rest
    rcases List.mem_cons.1 h with rfl | h
    · exact hle
    · exact hothers e h

theorem common_eq (fs : List Fraction) :
    common fs = ((fs.flatMap fun f => f.factors.map (·.base)).eraseDups.map fun p =>
      Factor.mk p (leastOf (fs.map fun f => Factor.exponentIn p f.factors))).filter
        fun g => g.exponent ≠ 0 := rfl

theorem regular_common {fs : List Fraction} (hfs : ∀ f ∈ fs, f.Proper) :
    ∀ g ∈ common fs, g.Regular := by
  intro g hg
  rw [common_eq] at hg
  obtain ⟨p, hp, rfl⟩ := List.mem_map.1 (List.mem_filter.1 hg).1
  obtain ⟨f, hf, hp⟩ := List.mem_flatMap.1 (List.mem_eraseDups.1 hp)
  obtain ⟨h, hh, rfl⟩ := List.mem_map.1 hp
  exact ((hfs f hf).regular h hh).withExponent _

/-- Among factors with different bases a base occurs as often as its factor says. -/
theorem totalExponent_map {ps : List Polynomial} (hps : ps.Nodup) (exponent : Polynomial → ℤ)
    (p : Polynomial) :
    Factor.totalExponent p ((ps.map fun q => Factor.mk q (exponent q)).filter
        fun g => g.exponent ≠ 0) =
      if p ∈ ps then exponent p else 0 := by
  induction ps with
  | nil => rfl
  | cons q ps ih =>
    obtain ⟨hq, hothers⟩ := List.nodup_cons.1 hps
    have hrest := ih hothers
    have hcons : Factor.totalExponent p (((q :: ps).map fun q => Factor.mk q (exponent q)).filter
        fun g => g.exponent ≠ 0) =
        (if q = p then exponent q else 0) +
          Factor.totalExponent p ((ps.map fun q => Factor.mk q (exponent q)).filter
            fun g => g.exponent ≠ 0) := by
      by_cases hzero : exponent q = 0
      · rw [List.map_cons, List.filter_cons_of_neg (by simpa using hzero), hzero, ite_self,
          zero_add]
      · rw [List.map_cons, List.filter_cons_of_pos (by simpa using hzero), Factor.totalExponent,
          List.map_cons, List.sum_cons]
        rfl
    rw [hcons, hrest]
    by_cases hqp : q = p
    · subst hqp
      simp [hq]
    · simp [hqp, Ne.symm hqp]

/-- **No common power is greater than the power in a fraction.** -/
theorem totalExponent_common_le {fs : List Fraction} (hf : f ∈ fs) (p : Polynomial) :
    Factor.totalExponent p (common fs) ≤ Factor.exponentIn p f.factors := by
  rw [common_eq, totalExponent_map (nodup_eraseDups _)]
  split
  next => exact leastOf_le (List.mem_map.2 ⟨f, hf, rfl⟩)
  next hp =>
    have hnone : ∀ g ∈ f.factors, g.base ≠ p := by
      rintro g hg rfl
      exact hp (List.mem_eraseDups.2 (List.mem_flatMap.2 ⟨f, hf, List.mem_map.2 ⟨g, hg, rfl⟩⟩))
    rw [Factor.exponentIn_eq_zero hnone]

/-- What is left of a fraction without the common powers can be multiplied out. -/
theorem rest_spec (hφ : Function.Injective φ) {fs : List Fraction} (hfs : ∀ f ∈ fs, f.Proper)
    (hf : f ∈ fs) (hzero : f.isZero = false) :
    (f.mul ⟨1, Factor.inverses (common fs)⟩).expanded.Trimmed ∧
      φ (f.mul ⟨1, Factor.inverses (common fs)⟩).expanded.toMv =
        f.value φ * (((common fs).map (Factor.value φ)).prod)⁻¹ := by
  have hinverses : ∀ h ∈ Factor.inverses (common fs), h.Regular := by
    intro h hh
    obtain ⟨g, hg, rfl⟩ := List.mem_map.1 hh
    exact (regular_common hfs g hg).withExponent _
  obtain ⟨hproper, hvalue⟩ := mul_spec hφ (hfs f hf) (g := ⟨1, Factor.inverses (common fs)⟩)
    hinverses
  have hexponents : ∀ g ∈ (f.mul ⟨1, Factor.inverses (common fs)⟩).factors, 0 ≤ g.exponent := by
    intro g hg
    rw [← hproper.exponentIn_eq hg]
    have hone : isZero ⟨1, Factor.inverses (common fs)⟩ = false := rfl
    have hfactors : (f.mul ⟨1, Factor.inverses (common fs)⟩).factors =
        (Factor.inverses (common fs)).foldl (fun fs h => h.join fs) f.factors := by
      simp [mul, hzero, hone]
    rw [hfactors, Factor.exponentIn_joinAll hinverses (hfs f hf), Factor.totalExponent_inverses]
    have hle := totalExponent_common_le hf g.base
    omega
  obtain ⟨htrimmed, hexpanded⟩ := expanded_spec (φ := φ) hproper hexponents
  refine ⟨htrimmed, ?_⟩
  have hinverse : value φ ⟨1, Factor.inverses (common fs)⟩ =
      (((common fs).map (Factor.value φ)).prod)⁻¹ := by
    rw [value, Rat.cast_one, one_mul, Factor.value_inverses]
  rw [hexpanded, hvalue, hinverse]

theorem product_spec (hφ : Function.Injective φ) {gs : List Factor} (hgs : ∀ g ∈ gs, g.Regular)
    (hf : f.Proper) :
    (gs.foldl (fun f g => f.mul ⟨1, [g]⟩) f).Proper ∧
      (gs.foldl (fun f g => f.mul ⟨1, [g]⟩) f).value φ =
        f.value φ * (gs.map (Factor.value φ)).prod := by
  refine foldl_prod (g := value φ) (fun g f hg hf => ?_) hgs hf
  have hfactor := proper_factor hg
  refine ⟨proper_mul hφ hf hfactor, ?_⟩
  rw [value_mul hφ hf hfactor, value_factor, mul_comm]

/-- **The sum of some fractions.** -/
theorem sum_spec (hφ : Function.Injective φ) {fs : List Fraction} (hfs : ∀ f ∈ fs, f.Proper) :
    (sum fs).Proper ∧ (sum fs).value φ = (fs.map (value φ)).sum := by
  obtain ⟨hjoined, hvalue⟩ := joinAll_spec (φ := φ) hfs (List.forall_mem_nil _)
  rw [List.map_nil, List.sum_nil, zero_add, ← sum_filter_isZero] at hvalue
  rw [← hvalue, sum]
  generalize hterms : (fs.foldl (fun gs f => f.join gs) []).filter (fun f => !f.isZero) = terms
  have hproper : ∀ f ∈ terms, f.Proper := by
    subst hterms
    exact fun f hf => hjoined f (List.mem_filter.1 hf).1
  have hnonzero : ∀ f ∈ terms, f.isZero = false := by
    subst hterms
    exact fun f hf => by simpa using (List.mem_filter.1 hf).2
  clear hterms hvalue hjoined hfs
  dsimp only
  split
  next f =>
    refine ⟨hproper f List.mem_cons_self, ?_⟩
    rw [List.map_singleton, List.sum_singleton]
  next =>
    have hregular := regular_common hproper
    have hshared := Factor.prod_value_ne_zero hφ hregular
    have hrest : ∀ f ∈ terms, _ ∧ _ := fun f hf => rest_spec hφ hproper hf (hnonzero f hf)
    obtain ⟨hproduct, hproductValue⟩ := product_spec hφ hregular (proper_const 1)
    have htrimmed : Polynomial.Trimmed
        (terms.map fun f => (f.mul ⟨1, Factor.inverses (common terms)⟩).expanded).flatten := by
      intro m hm
      obtain ⟨p, hp, hm⟩ := List.mem_flatten.1 hm
      obtain ⟨f, hf, rfl⟩ := List.mem_map.1 hp
      exact (hrest f hf).1 m hm
    have hsum : φ (Polynomial.toMv
        (terms.map fun f => (f.mul ⟨1, Factor.inverses (common terms)⟩).expanded).flatten) =
        (terms.map (value φ)).sum * (((common terms).map (Factor.value φ)).prod)⁻¹ := by
      rw [Polynomial.toMv_flatten, map_list_sum, List.map_map, List.map_map,
        ← List.sum_map_mul_right]
      exact congrArg List.sum (List.map_congr_left fun f hf => (hrest f hf).2)
    obtain ⟨hpoly, hpolyValue⟩ := ofPolynomial_spec hφ (Polynomial.canonical_ofTerms htrimmed)
    refine ⟨proper_mul hφ hpoly hproduct, ?_⟩
    rw [value_mul hφ hpoly hproduct, hpolyValue, Polynomial.toMv_ofTerms, hsum, hproductValue,
      value_const, Rat.cast_one, one_mul, inv_mul_cancel_right₀ hshared]

end Fraction

end Isolate.Symbolic
