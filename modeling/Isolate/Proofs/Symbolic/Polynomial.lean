import Isolate.Proofs.Symbolic.Exponents
import Isolate.Proofs.Symbolic.Fold
import Mathlib.Algebra.MvPolynomial.CommRing
import Mathlib.Data.Nat.Choose.Sum

/-!
# Polynomials as polynomials

A list of terms denotes a polynomial in symbols that are numbered.  Operations on lists denote the
operations on polynomials, and what they give is `Canonical`: the terms have different exponents
without zeros at the end, and coefficients other than zero.  A canonical list that denotes zero is
empty.

* `Polynomial.toMv` - the polynomial;
* `Polynomial.canonical_ofTerms`, `Polynomial.Canonical.toMv_eq_zero_iff` - canonical lists;
* `Polynomial.toMv_mul`, `Polynomial.toMv_pow` - products and powers;
* `Polynomial.toMv_primitive` - primitive parts.
-/

namespace Isolate.Symbolic

open MvPolynomial

/-- The polynomial of a single term. -/
noncomputable def Monomial.toMv (m : Monomial) : MvPolynomial ℕ ℚ :=
  monomial m.exponents.powers m.coefficient

namespace Polynomial

/-- The polynomial of some terms. -/
noncomputable def toMv (p : Polynomial) : MvPolynomial ℕ ℚ := (p.map Monomial.toMv).sum

variable {p q : Polynomial} {ms : List Monomial}

theorem toMv_nil : toMv [] = 0 := rfl

theorem toMv_cons (m : Monomial) (p : Polynomial) : toMv (m :: p) = m.toMv + toMv p :=
  List.sum_cons

theorem toMv_append (p q : Polynomial) : toMv (p ++ q) = toMv p + toMv q := by
  simp [toMv]

theorem toMv_flatten (ps : List Polynomial) : toMv ps.flatten = (ps.map toMv).sum := by
  induction ps with
  | nil => rfl
  | cons p ps ih => simp [toMv_append, ih]

/-! ## Canonical lists -/

/-- No exponents end in zero. -/
def Trimmed (p : Polynomial) : Prop := ∀ m ∈ p, m.exponents.Trimmed

/-- The terms stand in order, with different exponents, and none is zero. -/
structure Canonical (p : Polynomial) : Prop where
  ordered : p.Pairwise fun m n => m.exponents.order n.exponents = .lt
  trimmed : p.Trimmed
  nonzero : ∀ m ∈ p, m.coefficient ≠ 0

theorem toMv_combine (ms : List Monomial) : toMv (combine ms) = toMv ms := by
  induction ms with
  | nil => rfl
  | cons m rest ih =>
    rw [toMv_cons, ← ih, combine]
    cases combine rest with
    | nil => rfl
    | cons n others =>
      by_cases h : m.exponents = n.exponents
      · simp only [if_pos h]
        rw [toMv_cons, toMv_cons, Monomial.toMv, Monomial.toMv, Monomial.toMv, ← h, map_add,
          add_assoc]
      · simp only [if_neg h, toMv_cons]

/-- Terms that are zero do not count. -/
theorem toMv_filter (ms : List Monomial) :
    toMv (ms.filter fun m => m.coefficient ≠ 0) = toMv ms := by
  refine sum_filter fun m _ h => ?_
  have hzero : m.coefficient = 0 := by simpa using h
  rw [Monomial.toMv, hzero, map_zero]

theorem toMv_ofTerms (ms : List Monomial) : toMv (ofTerms ms) = toMv ms := by
  rw [ofTerms, toMv_filter, toMv_combine]
  exact ((List.mergeSort_perm ms _).map Monomial.toMv).sum_eq

theorem exists_of_mem_combine {n : Monomial} (h : n ∈ combine ms) :
    ∃ m ∈ ms, m.exponents = n.exponents := by
  induction ms generalizing n with
  | nil => simp [combine] at h
  | cons m rest ih =>
    rw [combine] at h
    cases hrest : combine rest with
    | nil =>
      simp only [hrest, List.mem_singleton] at h
      exact ⟨m, List.mem_cons_self, by rw [h]⟩
    | cons k others =>
      rw [hrest] at ih h
      have htail : ∀ n ∈ k :: others, ∃ l ∈ m :: rest, l.exponents = n.exponents := by
        intro n hn
        obtain ⟨l, hl, hexponents⟩ := ih hn
        exact ⟨l, List.mem_cons_of_mem _ hl, hexponents⟩
      by_cases hk : m.exponents = k.exponents
      · simp only [if_pos hk, List.mem_cons] at h
        rcases h with rfl | h
        · exact ⟨m, List.mem_cons_self, rfl⟩
        · exact htail n (List.mem_cons_of_mem _ h)
      · simp only [if_neg hk, List.mem_cons] at h
        rcases h with rfl | h
        · exact ⟨n, List.mem_cons_self, rfl⟩
        · exact htail n (List.mem_cons.2 h)

theorem ordered_combine
    (h : ms.Pairwise fun m n => (m.exponents.order n.exponents).isLE = true) :
    (combine ms).Pairwise fun m n => m.exponents.order n.exponents = .lt := by
  induction ms with
  | nil => simp [combine]
  | cons m rest ih =>
    obtain ⟨hm, hrest⟩ := List.pairwise_cons.1 h
    have hcombined : ∀ n ∈ combine rest, (m.exponents.order n.exponents).isLE = true := by
      intro n hn
      obtain ⟨l, hl, hexponents⟩ := exists_of_mem_combine hn
      exact hexponents ▸ hm l hl
    have hothers := ih hrest
    rw [combine]
    cases hcases : combine rest with
    | nil => simp
    | cons k others =>
      rw [hcases] at hcombined hothers
      obtain ⟨hk, htail⟩ := List.pairwise_cons.1 hothers
      by_cases heq : m.exponents = k.exponents
      · simp only [if_pos heq]
        exact List.pairwise_cons.2 ⟨fun n hn => heq ▸ hk n hn, htail⟩
      · simp only [if_neg heq]
        have hlt : m.exponents.order k.exponents = .lt := by
          have hle := hcombined k List.mem_cons_self
          have hne : m.exponents.order k.exponents ≠ .eq :=
            fun h => heq (Std.LawfulEqCmp.eq_of_compare h)
          revert hle hne
          cases m.exponents.order k.exponents <;> simp
        refine List.pairwise_cons.2 ⟨fun n hn => ?_, hothers⟩
        rcases List.mem_cons.1 hn with rfl | hn
        · exact hlt
        · exact Std.TransCmp.lt_trans hlt (hk n hn)

theorem pairwise_sorted (ms : List Monomial) :
    (ms.mergeSort fun m n => m.exponents.order n.exponents != .gt).Pairwise
      fun m n => (m.exponents.order n.exponents).isLE = true := by
  have hle : ∀ m n : Exponents, (m.order n != .gt) = (m.order n).isLE := by
    intro m n
    cases m.order n <;> rfl
  simp only [hle]
  refine List.pairwise_mergeSort (fun a b c => Std.TransCmp.isLE_trans) (fun a b => ?_) ms
  have hswap : a.exponents.order b.exponents = (b.exponents.order a.exponents).swap :=
    Std.OrientedCmp.eq_swap
  rw [hswap]
  cases b.exponents.order a.exponents <;> rfl

/-- **What is sorted and added up is canonical.** -/
theorem canonical_ofTerms (h : Trimmed ms) : Canonical (ofTerms ms) := by
  have hordered := ordered_combine (pairwise_sorted ms)
  refine ⟨hordered.filter _, ?_, ?_⟩
  · intro m hm
    obtain ⟨l, hl, hexponents⟩ := exists_of_mem_combine (List.mem_filter.1 hm).1
    exact hexponents ▸ h l (List.mem_mergeSort.1 hl)
  · intro m hm
    simpa using (List.mem_filter.1 hm).2

/-- A term with other exponents than all the others of a polynomial keeps its coefficient. -/
theorem coeff_toMv_eq_zero {e : ℕ →₀ ℕ} (h : ∀ m ∈ p, m.exponents.powers ≠ e) :
    coeff e (toMv p) = 0 := by
  induction p with
  | nil => exact coeff_zero e
  | cons m p ih =>
    obtain ⟨hm, hp⟩ := List.forall_mem_cons.1 h
    rw [toMv_cons, coeff_add, ih hp, Monomial.toMv, coeff_monomial, if_neg hm, add_zero]

theorem Canonical.coeff_head {m : Monomial} (h : Canonical (m :: p)) :
    coeff m.exponents.powers (toMv (m :: p)) = m.coefficient := by
  have hothers : ∀ n ∈ p, n.exponents.powers ≠ m.exponents.powers := by
    intro n hn heq
    have hlt := (List.pairwise_cons.1 h.ordered).1 n hn
    have hexponents := Exponents.eq_of_powers_eq (h.trimmed n (List.mem_cons_of_mem _ hn))
      (h.trimmed m List.mem_cons_self) heq
    have hself : m.exponents.order m.exponents = .eq := Std.ReflCmp.compare_self
    rw [hexponents, hself] at hlt
    cases hlt
  rw [toMv_cons, coeff_add, coeff_toMv_eq_zero hothers, Monomial.toMv, coeff_monomial, if_pos rfl,
    add_zero]

/-- **A canonical list denotes zero only if it is empty.** -/
theorem Canonical.toMv_eq_zero_iff (h : Canonical p) : toMv p = 0 ↔ p = [] := by
  constructor
  · intro hzero
    cases p with
    | nil => rfl
    | cons m p =>
      have hcoeff := h.coeff_head
      rw [hzero, coeff_zero] at hcoeff
      exact absurd hcoeff.symm (h.nonzero m List.mem_cons_self)
  · rintro rfl
    rfl

theorem isZero_iff (h : Canonical p) : p.isZero = true ↔ toMv p = 0 := by
  rw [h.toMv_eq_zero_iff, isZero, List.isEmpty_iff]

/-! ## Constants and symbols -/

theorem toMv_const (c : ℚ) : toMv (const c) = C c := by
  rw [const, toMv_ofTerms, toMv_cons, toMv_nil, add_zero, Monomial.toMv, Exponents.powers_nil]
  rfl

theorem canonical_const (c : ℚ) : Canonical (const c) :=
  canonical_ofTerms (List.forall_mem_singleton.2 Exponents.trimmed_nil)

theorem toMv_symbol (index : ℕ) : toMv (symbol index) = X index := by
  rw [symbol, toMv_cons, toMv_nil, add_zero, Monomial.toMv, Exponents.powers_symbol]
  rfl

theorem canonical_symbol (index : ℕ) : Canonical (symbol index) where
  ordered := List.pairwise_singleton _ _
  trimmed := List.forall_mem_singleton.2 (by simp [Exponents.Trimmed])
  nonzero := List.forall_mem_singleton.2 one_ne_zero

/-! ## Products and powers -/

theorem toMv_monomialMul (m n : Monomial) : (monomialMul m n).toMv = m.toMv * n.toMv := by
  rw [monomialMul, Monomial.toMv, Exponents.powers_add, Monomial.toMv, Monomial.toMv, monomial_mul]

theorem toMv_map_monomialMul (m : Monomial) (q : Polynomial) :
    toMv (q.map (monomialMul m)) = m.toMv * toMv q := by
  induction q with
  | nil => exact (mul_zero _).symm
  | cons n q ih => rw [List.map_cons, toMv_cons, toMv_cons, ih, toMv_monomialMul, mul_add]

theorem toMv_mul (p q : Polynomial) : toMv (p.mul q) = toMv p * toMv q := by
  rw [mul, toMv_ofTerms]
  induction p with
  | nil => exact (zero_mul _).symm
  | cons m p ih =>
    rw [List.flatMap_cons, toMv_append, ih, toMv_cons, add_mul]
    exact congrArg (· + _) (toMv_map_monomialMul m q)

theorem canonical_mul (hp : p.Trimmed) (hq : q.Trimmed) : Canonical (p.mul q) := by
  refine canonical_ofTerms fun k hk => ?_
  obtain ⟨m, hm, hk⟩ := List.mem_flatMap.1 hk
  obtain ⟨n, hn, rfl⟩ := List.mem_map.1 hk
  exact Exponents.trimmed_add (hp m hm) (hq n hn)

theorem toMv_monomialPow (m : Monomial) (n : ℕ) : (monomialPow m n).toMv = m.toMv ^ n := by
  rw [Monomial.toMv, Monomial.toMv, monomial_pow, monomialPow]
  by_cases hn : n = 0
  · simp [hn, Exponents.powers_nil]
  · rw [if_neg hn, Exponents.powers_map_mul]

theorem trimmed_monomialPow {m : Monomial} (hm : m.exponents.Trimmed) (n : ℕ) :
    (monomialPow m n).exponents.Trimmed := by
  rw [monomialPow]
  by_cases hn : n = 0
  · simp [hn, Exponents.trimmed_nil]
  · simpa [hn] using Exponents.trimmed_map_mul hn hm

theorem binomialsFrom_choose (n k left : ℕ) :
    binomialsFrom n k (n.choose k) left =
      (List.range (left + 1)).map fun i => n.choose (k + i) := by
  induction left generalizing k with
  | zero => rfl
  | succ left ih =>
    have hnext : n.choose k * (n - k) / (k + 1) = n.choose (k + 1) := by
      rw [← Nat.choose_succ_right_eq, Nat.mul_div_cancel _ k.succ_pos]
    rw [binomialsFrom, hnext, ih, @List.range_succ_eq_map (left + 1), List.map_cons,
      List.map_map]
    simp [Function.comp_def, Nat.add_assoc, Nat.add_comm 1]

theorem zipIdx_binomials (n : ℕ) :
    (binomials n).zipIdx = (List.range (n + 1)).map fun k => (n.choose k, k) := by
  have hbinomials : binomials n = (List.range (n + 1)).map n.choose := by
    simpa [binomials] using binomialsFrom_choose n 0 n
  rw [hbinomials]
  refine List.ext_getElem (by simp) fun i _ _ => ?_
  simp

theorem toMv_flatMap {α : Type} (l : List α) (f : α → Polynomial) :
    toMv (l.flatMap f) = (l.map fun a => toMv (f a)).sum := by
  rw [List.flatMap_def, toMv_flatten, List.map_map]
  rfl

theorem toMv_multinomial (ms : List Monomial) (n : ℕ) : toMv (multinomial ms n) = toMv ms ^ n := by
  induction ms generalizing n with
  | nil =>
    cases n with
    | zero => simp [multinomial, toMv, Monomial.toMv, Exponents.powers_nil]
    | succ n => simp [multinomial, toMv_nil]
  | cons m rest ih =>
    cases rest with
    | nil => simp [multinomial, toMv_cons, toMv_nil, toMv_monomialPow]
    | cons k rest =>
      rw [multinomial.eq_4 _ _ _ (by simp), zipIdx_binomials, toMv_flatMap, List.map_map, toMv_cons,
        add_pow]
      refine congrArg List.sum (List.map_congr_left fun i _ => ?_)
      have hterm : Monomial.toMv ⟨(monomialPow m i).exponents,
          (n.choose i : ℚ) * (monomialPow m i).coefficient⟩ = n.choose i * m.toMv ^ i := by
        rw [← toMv_monomialPow, Monomial.toMv, Monomial.toMv, ← C_mul_monomial]
        simp
      refine (toMv_map_monomialMul _ _).trans ?_
      rw [hterm, ih]
      ring

theorem trimmed_multinomial (h : Trimmed ms) (n : ℕ) : Trimmed (multinomial ms n) := by
  induction ms generalizing n with
  | nil =>
    cases n with
    | zero => exact List.forall_mem_singleton.2 Exponents.trimmed_nil
    | succ n => exact List.forall_mem_nil _
  | cons m rest ih =>
    obtain ⟨hm, hrest⟩ := List.forall_mem_cons.1 h
    cases rest with
    | nil => exact List.forall_mem_singleton.2 (trimmed_monomialPow hm n)
    | cons k rest =>
      intro t ht
      rw [multinomial.eq_4 _ _ _ (by simp)] at ht
      obtain ⟨⟨c, i⟩, -, ht⟩ := List.mem_flatMap.1 ht
      obtain ⟨u, hu, rfl⟩ := List.mem_map.1 ht
      exact Exponents.trimmed_add (trimmed_monomialPow hm i) (ih hrest _ u hu)

theorem squaringPow_spec (h : p.Trimmed) (n : ℕ) :
    toMv (squaringPow p n) = toMv p ^ n ∧ Canonical (squaringPow p n) := by
  induction n using Nat.strongRecOn with
  | ind n ih =>
    rw [squaringPow]
    by_cases hn : n = 0
    · subst hn
      exact ⟨by simp [toMv_const], canonical_const 1⟩
    · obtain ⟨hhalf, hcanonical⟩ := ih (n / 2) (Nat.div_lt_self (Nat.pos_of_ne_zero hn) one_lt_two)
      have hsquare := canonical_mul hcanonical.trimmed hcanonical.trimmed
      rw [dif_neg hn]
      by_cases heven : n % 2 = 0
      · simp only [if_pos heven]
        refine ⟨?_, hsquare⟩
        rw [toMv_mul, hhalf, ← pow_add]
        congr 1
        omega
      · simp only [if_neg heven]
        refine ⟨?_, canonical_mul h hsquare.trimmed⟩
        rw [toMv_mul, toMv_mul, hhalf, ← pow_add, ← pow_succ']
        congr 1
        omega

theorem toMv_pow (h : p.Trimmed) (n : ℕ) : toMv (p.pow n) = toMv p ^ n := by
  rw [pow]
  split
  · rw [toMv_ofTerms, toMv_multinomial]
  · exact (squaringPow_spec h n).1

theorem canonical_pow (h : p.Trimmed) (n : ℕ) : Canonical (p.pow n) := by
  rw [pow]
  split
  · exact canonical_ofTerms (trimmed_multinomial h n)
  · exact (squaringPow_spec h n).2

/-! ## Primitive parts -/

theorem foldl_common_le (rest : List Monomial) (e : Exponents) :
    (rest.foldl (fun e n => e.common n.exponents) e).powers ≤ e.powers ∧
      ∀ n ∈ rest, (rest.foldl (fun e n => e.common n.exponents) e).powers ≤ n.exponents.powers := by
  induction rest generalizing e with
  | nil => simp
  | cons m rest ih =>
    obtain ⟨hle, hothers⟩ := ih (e.common m.exponents)
    obtain ⟨hleft, hright⟩ := Exponents.powers_common_le e m.exponents
    exact ⟨hle.trans hleft, List.forall_mem_cons.2 ⟨hle.trans hright, hothers⟩⟩

theorem content_le {m : Monomial} (h : m ∈ p) : p.content.powers ≤ m.exponents.powers := by
  cases p with
  | nil => simp at h
  | cons k rest =>
    obtain ⟨hle, hothers⟩ := foldl_common_le rest k.exponents
    rcases List.mem_cons.1 h with rfl | h
    · exact hle
    · exact hothers m h

theorem Canonical.leading_ne_zero (h : Canonical p) (hp : p ≠ []) : p.leading ≠ 0 := by
  cases p with
  | nil => exact absurd rfl hp
  | cons m p => exact h.nonzero m List.mem_cons_self

/-- **A polynomial is its leading coefficient times its content times its primitive part.** -/
theorem toMv_primitive (h : p.leading ≠ 0) :
    toMv p = monomial p.content.powers p.leading * toMv p.primitive := by
  rw [primitive, toMv_ofTerms]
  generalize hcontent : p.content = e
  have hle : ∀ m ∈ p, e.powers ≤ m.exponents.powers := fun m hm => hcontent ▸ content_le hm
  generalize p.leading = c at h
  clear hcontent
  induction p with
  | nil => exact (mul_zero _).symm
  | cons m p ih =>
    obtain ⟨hm, hp⟩ := List.forall_mem_cons.1 hle
    have hterm : m.toMv =
        monomial e.powers c * Monomial.toMv ⟨m.exponents.sub e, m.coefficient / c⟩ := by
      rw [Monomial.toMv, Monomial.toMv, monomial_mul, Exponents.powers_sub,
        add_tsub_cancel_of_le hm, mul_div_cancel₀ _ h]
    rw [List.map_cons, toMv_cons, toMv_cons, mul_add, ← ih hp, ← hterm]

theorem canonical_primitive (p : Polynomial) : Canonical p.primitive := by
  refine canonical_ofTerms fun k hk => ?_
  obtain ⟨m, -, rfl⟩ := List.mem_map.1 hk
  exact Exponents.trimmed_sub _ _

end Polynomial

end Isolate.Symbolic
