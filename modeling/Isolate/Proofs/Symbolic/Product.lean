import Isolate.Proofs.Symbolic.Sum
import Isolate.Symbolic.Function
import Mathlib.Algebra.Order.Ring.Int
import Mathlib.Data.Rat.Lemmas
import Mathlib.Tactic.FieldSimp

/-!
# Products and powers of regular forms

Products of regular forms are regular, and so are whole powers, unless zero is inverted.  They
denote the products and the powers of what the forms denote.  In a regular form every factor is a
whole power of a symbol or of a sum, so roots and powers of numbers play no part.

* `Form.denotes_ofProduct` - products;
* `Form.denotes_power`, `Form.denotes_raisedTo` - whole powers.
-/

namespace Isolate.Symbolic

variable {F : Type} [Field F] {S : Set String} {env : String → F}

/-! ## Powers of constants -/

theorem ratPow_eq (q : ℚ) (n : ℕ) : ratPow q n = q ^ n := by
  rw [ratPow]
  split
  next h =>
    obtain rfl : q = 1 := Rat.ext h.2 h.1
    exact (one_pow n).symm
  next =>
    split
    next h =>
      obtain rfl : q = -1 := Rat.ext h.2 h.1
      rcases Nat.even_or_odd n with heven | hodd
      · rw [if_pos (Nat.even_iff.1 heven), heven.neg_one_pow]
      · rw [if_neg (by rw [Nat.odd_iff.1 hodd]; decide), hodd.neg_one_pow]
    next =>
      split
      next h =>
        obtain rfl : q = 0 := Rat.num_eq_zero.1 h
        rw [zero_pow_eq]
      next => rw [Rat.mkRat_eq_div, Int.cast_pow, Nat.cast_pow, ← div_pow, Rat.num_div_den]

theorem Scalar.exact_pow (q : ℚ) {n : ℤ} (hn : n < 0 → q ≠ 0) :
    (Scalar.exact q).pow n = .exact (q ^ n) := by
  cases n with
  | ofNat n =>
    rw [Int.ofNat_eq_natCast, zpow_natCast]
    cases n with
    | zero => exact congrArg Scalar.exact (pow_zero q).symm
    | succ n => exact congrArg Scalar.exact (ratPow_eq q (n + 1))
  | negSucc n =>
    have hq : q ^ (n + 1) ≠ 0 := pow_ne_zero _ (hn (Int.negSucc_lt_zero n))
    have hpow : (Scalar.exact q).pow (.negSucc n) = (Scalar.exact (ratPow q (n + 1))).inv := rfl
    rw [hpow, ratPow_eq, inv, if_neg (fun h => hq (Rat.num_eq_zero.1 h)), zpow_negSucc]

namespace Form

/-! ## Bases -/

theorem rescaled?_of_exact {terms : List (Weighted Form)}
    (h : ∀ t ∈ terms, ∃ q, t.weight = .exact q) (e : Scalar) : rescaled? terms e = none := by
  have hexact : (terms.any fun t => !t.weight.isExact) = false := by
    rw [List.any_eq_false]
    intro t ht
    obtain ⟨q, hq⟩ := h t ht
    simp [hq, Scalar.isExact]
  simp [rescaled?, hexact]

/-- A power of a symbol or of a sum stays a single factor. -/
theorem raise_atom {b : Form} (hatom : b.IsAtom) (hb : b.Regular S env) (n : ℤ) :
    raise b n = (.one, [⟨b, scalar (.ofInt n)⟩]) := by
  cases hb with
  | scalar q => exact hatom.elim
  | symbol known => rfl
  | sum weights kinds items => simp only [raise, rescaled?_of_exact weights]
  | product q atoms exponents bases => exact hatom.elim

theorem hasInfinity_atom {b : Form} (hatom : b.IsAtom) (hb : b.Regular S env) :
    b.hasInfinity = false := by
  cases hb with
  | scalar q => exact hatom.elim
  | symbol known => rfl
  | @sum terms weights kinds items =>
    rw [hasInfinity, List.any_eq_false]
    intro t ht
    obtain ⟨q, hq⟩ := weights t ht
    simp [hq, Scalar.rational?]
  | product q atoms exponents bases => exact hatom.elim

/-- A whole multiple of a whole exponent. -/
theorem scale_ofInt (m n : ℤ) :
    scale (.ofInt m) (scalar (.ofInt n)) = scalar (.ofInt (m * n)) := by
  unfold scale
  split
  next h =>
    obtain rfl : m = 1 := by simpa [Scalar.ofInt, Scalar.one] using h
    rw [one_mul]
  next => simp [Scalar.ofInt, Scalar.mul]

end Form

/-! ## Gathered factors -/

namespace Multiple

/-- The value of a base with a whole exponent. -/
def denote (env : String → F) (m : Multiple) : F := m.base.denote env ^ m.count.integer?.getD 0

/-- A symbol or a sum with a whole exponent that does not invert zero. -/
structure Regular (S : Set String) (env : String → F) (m : Multiple) : Prop where
  atom : m.base.IsAtom
  base : m.base.Regular S env
  item : m.item = .one
  count : ∃ n : ℤ, m.count = .ofInt n ∧ (n < 0 → m.base.denote env ≠ 0)

theorem integer?_ofInt (n : ℤ) : (Scalar.ofInt n).integer? = some n := by
  simp [Scalar.integer?, Scalar.ofInt]

theorem denote_of_count {m : Multiple} {n : ℤ} (h : m.count = .ofInt n) :
    m.denote env = m.base.denote env ^ n := by
  rw [denote, h, integer?_ofInt, Option.getD_some]

theorem ofFactor_spec {f : Powered Form} (hf : f.Regular S env) :
    (ofFactor f).Regular S env ∧ (ofFactor f).denote env = f.denote env := by
  obtain ⟨b, e⟩ := f
  obtain ⟨n, rfl, hn⟩ := hf.exponent
  exact ⟨⟨hf.atom, hf.base, rfl, n, rfl, hn⟩, rfl⟩

theorem factor_spec {m : Multiple} (hm : m.Regular S env) :
    m.factor.Regular S env ∧ m.factor.denote env = m.denote env := by
  obtain ⟨b, item, count⟩ := m
  obtain rfl : item = .one := hm.item
  obtain ⟨n, rfl, hn⟩ := hm.count
  have hfactor : factor ⟨b, .one, .ofInt n⟩ = ⟨b, .scalar (.ofInt n)⟩ :=
    congrArg (Powered.mk b) ((Form.scale_ofInt n 1).trans (by rw [mul_one]))
  rw [hfactor, Powered.denote_mk, denote_of_count rfl]
  exact ⟨Powered.regular_mk hm.atom hm.base hn, rfl⟩

theorem join_spec {m : Multiple} (hm : m.Regular S env) {ns : List Multiple}
    (hns : ∀ n ∈ ns, n.Regular S env) :
    (∀ n ∈ m.join ns, n.Regular S env) ∧
      ((m.join ns).map (denote env)).prod = m.denote env * (ns.map (denote env)).prod := by
  induction ns with
  | nil => exact ⟨List.forall_mem_singleton.2 hm, rfl⟩
  | cons n ns ih =>
    obtain ⟨hn, hothers⟩ := List.forall_mem_cons.1 hns
    rw [join]
    split
    next hsame =>
      obtain ⟨i, hi, hi0⟩ := hm.count
      obtain ⟨j, hj, hj0⟩ := hn.count
      rw [← hsame.1] at hi0
      have hcount : n.count.add m.count = .ofInt (j + i) := by
        rw [hi, hj]
        simp [Scalar.ofInt, Scalar.add]
      have hinverted : j + i < 0 → n.base.denote env ≠ 0 := by
        intro hneg
        by_cases hj : j < 0
        · exact hj0 hj
        · exact hi0 (by omega)
      refine ⟨List.forall_mem_cons.2
        ⟨⟨hn.atom, hn.base, hn.item, j + i, hcount, hinverted⟩, hothers⟩, ?_⟩
      rw [List.map_cons, List.prod_cons, List.map_cons, List.prod_cons, denote_of_count hcount,
        denote_of_count hi, denote_of_count hj, ← hsame.1, Form.zpow_add_of hj0 hi0]
      ring
    next =>
      obtain ⟨hregular, hvalue⟩ := ih hothers
      refine ⟨List.forall_mem_cons.2 ⟨hn, hregular⟩, ?_⟩
      rw [List.map_cons, List.prod_cons, hvalue, List.map_cons, List.prod_cons, mul_left_comm]

theorem joinAll_spec {fs : List (Powered Form)} (hfs : ∀ f ∈ fs, f.Regular S env)
    {ms : List Multiple} (hms : ∀ m ∈ ms, m.Regular S env) :
    (∀ m ∈ fs.foldl (fun ms f => (ofFactor f).join ms) ms, m.Regular S env) ∧
      ((fs.foldl (fun ms f => (ofFactor f).join ms) ms).map (denote env)).prod =
        (ms.map (denote env)).prod * (fs.map (Powered.denote env)).prod := by
  refine foldl_prod (P := Powered.Regular S env)
    (Q := fun ms : List Multiple => ∀ m ∈ ms, m.Regular S env) (f := Powered.denote env)
    (g := fun ms => (ms.map (denote env)).prod) (fun f ms hf hms => ?_) hfs hms
  obtain ⟨hm, hvalue⟩ := ofFactor_spec hf
  rw [← hvalue]
  exact join_spec hm hms

/-- Bases with the exponent zero do not count. -/
theorem prod_factors {ms : List Multiple} (hms : ∀ m ∈ ms, m.Regular S env) :
    (∀ f ∈ (ms.filter (!·.count.isZero)).map factor, f.Regular S env) ∧
      (((ms.filter (!·.count.isZero)).map factor).map (Powered.denote env)).prod =
        (ms.map (denote env)).prod := by
  have hkept : ∀ m ∈ ms.filter (!·.count.isZero), m.Regular S env :=
    fun m hm => hms m (List.mem_filter.1 hm).1
  refine ⟨fun f hf => ?_, ?_⟩
  · obtain ⟨m, hm, rfl⟩ := List.mem_map.1 hf
    exact (factor_spec (hkept m hm)).1
  · have hvalues := List.map_congr_left fun m hm => (factor_spec (hkept m hm)).2
    rw [List.map_map]
    refine (congrArg List.prod hvalues).trans (prod_filter fun m _ h => ?_)
    have hcount : m.count = .ofInt 0 := by simpa [Scalar.isZero, Scalar.ofInt] using h
    rw [denote_of_count hcount, zpow_zero]

end Multiple

namespace Form

theorem gather_spec {fs : List (Powered Form)} (h : ∀ f ∈ fs, f.Regular S env) :
    (∀ f ∈ gather fs, f.Regular S env) ∧
      ((gather fs).map (Powered.denote env)).prod = (fs.map (Powered.denote env)).prod := by
  obtain ⟨hjoined, hvalue⟩ := Multiple.joinAll_spec h (List.forall_mem_nil _)
  rw [List.map_nil, List.prod_nil, one_mul] at hvalue
  rw [← hvalue, gather]
  generalize fs.foldl (fun ms f => (Multiple.ofFactor f).join ms) [] = joined at hjoined
  have hfinite : (joined.any fun m => m.count.isZero && m.base.hasInfinity) = false := by
    rw [List.any_eq_false]
    intro m hm
    simp [hasInfinity_atom (hjoined m hm).atom (hjoined m hm).base]
  simp only [hfinite, Bool.false_eq_true, if_false]
  exact Multiple.prod_factors hjoined

/-! ## Factors without numbers -/

theorem upright_of_regular {f : Powered Form} (hf : f.Regular S env) : upright f = f := by
  obtain ⟨n, he, -⟩ := hf.exists_eq
  rw [he]
  rfl

theorem joinGrowth_of_regular {f : Powered Form} (hf : f.Regular S env) (gs : List (Powered Form)) :
    joinGrowth f gs = gs ++ [f] := by
  induction gs with
  | nil => rfl
  | cons g gs ih =>
    have hgrowth : growth? f = none := by
      obtain ⟨n, he, -⟩ := hf.exists_eq
      rw [he]
      rfl
    rw [joinGrowth, hgrowth, ih]
    rfl

theorem mergeGrowths_of_regular {fs : List (Powered Form)} (h : ∀ f ∈ fs, f.Regular S env) :
    mergeGrowths fs = fs := by
  have hfold : ∀ (fs gs : List (Powered Form)), (∀ f ∈ fs, f.Regular S env) →
      fs.foldl (fun gs f => joinGrowth f gs) gs = gs ++ fs := by
    intro fs
    induction fs with
    | nil => exact fun gs _ => (List.append_nil gs).symm
    | cons f fs ih =>
      intro gs h
      obtain ⟨hf, hothers⟩ := List.forall_mem_cons.1 h
      rw [List.foldl_cons, joinGrowth_of_regular hf, ih _ hothers, List.append_assoc]
      rfl
  rw [mergeGrowths, hfold fs [] h, List.nil_append, List.filter_eq_self]
  exact fun f hf => by simpa using (h f hf).atom.ne_one

theorem settleOne_of_regular {f : Powered Form} (hf : f.Regular S env) :
    settleOne f = (.one, [f]) := by
  obtain ⟨n, he, -⟩ := hf.exists_eq
  rw [he]
  simp only [settleOne, integer?_ofInt, raise_atom hf.atom hf.base]

theorem rationalPower?_of_regular {f : Powered Form} (hf : f.Regular S env) :
    rationalPower? f = none := by
  have hatom := hf.atom
  obtain ⟨b, e⟩ := f
  cases b with
  | scalar c => exact hatom.elim
  | _ => rfl

theorem settle_of_regular {fs : List (Powered Form)} (h : ∀ f ∈ fs, f.Regular S env) :
    settle fs = (.exact 1, fs) := by
  have hnumbers : fs.filterMap rationalPower? = [] :=
    List.filterMap_eq_nil_iff.2 fun f hf => rationalPower?_of_regular (h f hf)
  have hothers : (fs.filter fun f => (rationalPower? f).isNone) = fs :=
    List.filter_eq_self.2 fun f hf => by rw [rationalPower?_of_regular (h f hf)]; rfl
  have hsettled : fs.map settleOne = fs.map fun f => (.one, [f]) :=
    List.map_congr_left fun f hf => settleOne_of_regular (h f hf)
  have hone : ∀ gs : List (Powered Form),
      (gs.map fun f => (Scalar.one, [f])).foldl (fun c p => Scalar.mul c p.1) (.exact 1) =
        .exact 1 := by
    intro gs
    induction gs with
    | nil => rfl
    | cons g gs ih =>
      have hmul : (Scalar.exact 1).mul .one = .exact 1 := congrArg Scalar.exact (mul_one 1)
      rw [List.map_cons, List.foldl_cons, hmul, ih]
  rw [settle, hnumbers, hothers, hsettled]
  refine Prod.ext (hone fs) ?_
  simp [Radical.ofPowers, List.flatMap_map]

variable [CharZero F]

/-- **The product of a constant and some factors.** -/
theorem denotes_ofFactors (q : ℚ) {fs : List (Powered Form)} (h : ∀ f ∈ fs, f.Regular S env) :
    Denotes S env (ofFactors (.exact q) fs) (q * (fs.map (Powered.denote env)).prod) := by
  have hupright : fs.map upright = fs :=
    (List.map_congr_left fun f hf => upright_of_regular (h f hf)).trans (List.map_id fs)
  obtain ⟨hgathered, hvalue⟩ := gather_spec h
  obtain ⟨hkept, hkeptValue⟩ := gather_spec hgathered
  have hcoefficient : (Scalar.exact q).mul (.exact 1) = .exact q :=
    congrArg Scalar.exact (mul_one q)
  rw [← hvalue, ← hkeptValue, ofFactors, hupright, settle_of_regular hgathered]
  simp only [mergeGrowths_of_regular hkept, hcoefficient]
  generalize gather (gather fs) = kept at hkept
  split
  next =>
    rw [List.map_nil, List.prod_nil, mul_one]
    exact denotes_scalar q
  next b e =>
    split
    next he =>
      subst he
      rw [List.map_singleton, List.prod_singleton, Powered.denote_one]
      exact denotes_scale q (hkept _ List.mem_cons_self).base
    next => exact denotes_withCoefficient q hkept
  next =>
    have hperm := List.mergeSort_perm kept fun f g => (factorKey f).order (factorKey g) != .gt
    rw [← (hperm.map _).prod_eq]
    exact denotes_withCoefficient q fun f hf => hkept f (hperm.subset hf)

/-! ## Products -/

omit [CharZero F] in
theorem factors_spec {a : Form} (ha : a.Regular S env) :
    ∃ q, a.factors.1 = .exact q ∧ (∀ f ∈ a.factors.2, f.Regular S env) ∧
      (q : F) * (a.factors.2.map (Powered.denote env)).prod = a.denote env := by
  have hatom : a.IsAtom → a.factors = (.one, [⟨a, one⟩]) →
      ∃ q, a.factors.1 = .exact q ∧ (∀ f ∈ a.factors.2, f.Regular S env) ∧
        (q : F) * (a.factors.2.map (Powered.denote env)).prod = a.denote env := by
    intro hatom hfactors
    rw [hfactors]
    refine ⟨1, rfl, List.forall_mem_singleton.2 (Powered.regular_one hatom ha), ?_⟩
    rw [Rat.cast_one, one_mul, List.map_singleton, List.prod_singleton, Powered.denote_one]
  cases ha with
  | scalar q => exact ⟨q, rfl, List.forall_mem_nil _, mul_one _⟩
  | symbol known => exact hatom trivial rfl
  | sum weights kinds items => exact hatom trivial rfl
  | product q atoms exponents bases =>
    refine ⟨q, rfl, (regular_product.1 (.product q atoms exponents bases)).2, ?_⟩
    rw [denote_product]
    rfl

/-- The constants and the factors of some forms. -/
theorem factorsAll_spec {forms : List Form} (h : ∀ a ∈ forms, a.Regular S env) (r : ℚ) :
    ∃ q, (forms.map factors).foldl (fun c p => Scalar.mul c p.1) (.exact r) = .exact q ∧
      (∀ f ∈ (forms.map factors).flatMap (·.2), f.Regular S env) ∧
      (q : F) * (((forms.map factors).flatMap (·.2)).map (Powered.denote env)).prod =
        r * (forms.map (denote env)).prod := by
  induction forms generalizing r with
  | nil => exact ⟨r, rfl, List.forall_mem_nil _, rfl⟩
  | cons a forms ih =>
    obtain ⟨ha, hothers⟩ := List.forall_mem_cons.1 h
    obtain ⟨c, hc, hfactors, hvalue⟩ := factors_spec ha
    obtain ⟨q, hq, hregular, htotal⟩ := ih hothers (r * c)
    have hmul : (Scalar.exact r).mul a.factors.1 = .exact (r * c) := by
      rw [hc]
      rfl
    refine ⟨q, ?_, ?_, ?_⟩
    · rw [List.map_cons, List.foldl_cons, hmul, hq]
    · rw [List.map_cons, List.flatMap_cons]
      exact List.forall_mem_append.2 ⟨hfactors, hregular⟩
    · rw [List.map_cons, List.flatMap_cons, List.map_append, List.prod_append, mul_left_comm,
        htotal, Rat.cast_mul, List.map_cons, List.prod_cons, ← hvalue]
      ring

omit [CharZero F] in
/-- Forms that are one multiply nothing. -/
theorem prod_filter_one (forms : List Form) :
    ((forms.filter (· ≠ one)).map (denote env)).prod = (forms.map (denote env)).prod := by
  refine prod_filter fun a _ h => ?_
  obtain rfl : a = one := by simpa using h
  exact denote_one

/-- **The product of some forms.** -/
theorem denotes_ofProduct {forms : List Form} (h : ∀ a ∈ forms, a.Regular S env) :
    Denotes S env (ofProduct forms) (forms.map (denote env)).prod := by
  rw [← prod_filter_one, ofProduct]
  have hkept : ∀ a ∈ forms.filter (· ≠ one), a.Regular S env :=
    fun a ha => h a (List.mem_filter.1 ha).1
  generalize forms.filter (· ≠ one) = kept at hkept
  split
  next a =>
    rw [List.map_singleton, List.prod_singleton]
    exact ⟨hkept a List.mem_cons_self, rfl⟩
  next =>
    have hperm := partition_perm isProduct kept
    obtain ⟨q, hq, hfactors, hvalue⟩ :=
      factorsAll_spec (fun a ha => hkept a (hperm.subset ha)) 1
    have hone : (.one : Scalar) = .exact 1 := rfl
    rw [Rat.cast_one, one_mul] at hvalue
    rw [← (hperm.map _).prod_eq, ← hvalue]
    simp only [hone, hq]
    exact denotes_ofFactors q hfactors

/-! ## Powers -/

omit [CharZero F] in
/-- A power of some factors multiplies their exponents. -/
theorem raiseAll_spec {fs : List (Powered Form)} (h : ∀ f ∈ fs, f.Regular S env) {n : ℤ}
    (hn : n < 0 → ∀ f ∈ fs, f.denote env ≠ 0) :
    ∃ gs, raiseAll fs n = (.exact 1, gs) ∧ (∀ g ∈ gs, g.Regular S env) ∧
      (gs.map (Powered.denote env)).prod = (fs.map (Powered.denote env)).prod ^ n := by
  induction fs with
  | nil => exact ⟨[], rfl, List.forall_mem_nil _, (one_zpow n).symm⟩
  | cons f fs ih =>
    obtain ⟨hf, hothers⟩ := List.forall_mem_cons.1 h
    obtain ⟨gs, hgs, hregular, hvalue⟩ := ih hothers
      fun hneg => (List.forall_mem_cons.1 (hn hneg)).2
    obtain ⟨b, e⟩ := f
    obtain ⟨m, rfl, hm⟩ := hf.exponent
    have hraised : raiseAll (⟨b, scalar (.ofInt m)⟩ :: fs) n =
        (.exact 1, ⟨b, scalar (.ofInt (n * m))⟩ :: gs) := by
      rw [raiseAll]
      simp only [scale_ofInt, integer?_ofInt, raise_atom hf.atom hf.base, hgs]
      exact Prod.ext (congrArg Scalar.exact (mul_one 1)) rfl
    have hinverted : n * m < 0 → b.denote env ≠ 0 := by
      intro hneg
      rcases mul_neg_iff.1 hneg with ⟨-, hm0⟩ | ⟨hn0, hm0⟩
      · exact hm hm0
      · intro hzero
        refine (List.forall_mem_cons.1 (hn hn0)).1 ?_
        rw [Powered.denote_mk, hzero, zero_zpow m hm0.ne']
    refine ⟨_, hraised, List.forall_mem_cons.2
      ⟨Powered.regular_mk hf.atom hf.base hinverted, hregular⟩, ?_⟩
    rw [List.map_cons, List.prod_cons, hvalue, List.map_cons, List.prod_cons, mul_zpow,
      Powered.denote_mk, Powered.denote_mk, ← zpow_mul, mul_comm m n]

omit [CharZero F] in
theorem prod_ne_zero_of {fs : List (Powered Form)} (h : (fs.map (Powered.denote env)).prod ≠ 0) :
    ∀ f ∈ fs, f.denote env ≠ 0 := by
  intro f hf hzero
  exact h (List.prod_eq_zero (List.mem_map.2 ⟨f, hf, hzero⟩))

/-- A whole power of a form, unless zero is inverted. -/
theorem raise_spec {a : Form} (ha : a.Regular S env) {n : ℤ} (hn : n < 0 → a.denote env ≠ 0) :
    ∃ q, (raise a n).1 = .exact q ∧ (∀ f ∈ (raise a n).2, f.Regular S env) ∧
      q * ((raise a n).2.map (Powered.denote env)).prod = a.denote env ^ n := by
  have hatom : a.IsAtom → ∃ q, (raise a n).1 = .exact q ∧
      (∀ f ∈ (raise a n).2, f.Regular S env) ∧
      q * ((raise a n).2.map (Powered.denote env)).prod = a.denote env ^ n := by
    intro hatom
    rw [raise_atom hatom ha]
    refine ⟨1, rfl, List.forall_mem_singleton.2 (Powered.regular_mk hatom ha hn), ?_⟩
    rw [List.map_singleton, List.prod_singleton, Powered.denote_mk, Rat.cast_one, one_mul]
  cases ha with
  | scalar q =>
    have hq : n < 0 → q ≠ 0 := fun hneg => by simpa [denote_scalar] using hn hneg
    refine ⟨q ^ n, ?_, List.forall_mem_nil _, ?_⟩
    · rw [raise, Scalar.exact_pow q hq]
    · rw [raise, List.map_nil, List.prod_nil, mul_one, Rat.cast_zpow, denote_scalar]
  | symbol known => exact hatom trivial
  | sum weights kinds items => exact hatom trivial
  | @product q factors atoms exponents bases =>
    have hfactors := (regular_product.1 (Regular.product q atoms exponents bases)).2
    rw [denote_product] at hn
    have hq : n < 0 → q ≠ 0 := by
      rintro hneg rfl
      exact left_ne_zero_of_mul (hn hneg) Rat.cast_zero
    obtain ⟨gs, hgs, hregular, hvalue⟩ := raiseAll_spec hfactors fun hneg =>
      prod_ne_zero_of (right_ne_zero_of_mul (hn hneg))
    rw [raise, hgs]
    refine ⟨q ^ n, ?_, hregular, ?_⟩
    · rw [Scalar.exact_pow q hq]
      exact congrArg Scalar.exact (mul_one _)
    · rw [hvalue, denote_product, mul_zpow, Rat.cast_zpow]
      rfl

/-- **A whole power of a form**, unless zero is inverted. -/
theorem denotes_power {a : Form} (ha : a.Regular S env) {n : ℤ} (hn : n < 0 → a.denote env ≠ 0) :
    Denotes S env (power a (scalar (.ofInt n))) (a.denote env ^ n) := by
  unfold power
  rw [integer?_ofInt]
  dsimp only
  split
  next hzero =>
    rw [hzero, zpow_zero]
    exact ⟨regular_one, denote_one⟩
  next =>
    obtain ⟨q, hq, hfactors, hvalue⟩ := raise_spec ha hn
    rw [← hvalue, hq]
    exact denotes_ofFactors q hfactors

omit [CharZero F] in
/-- No power of a symbol or of a sum is a natural exponential. -/
theorem exponent?_of_regular {a : Form} (ha : a.Regular S env) : exponent? a = none := by
  cases ha with
  | scalar q => rfl
  | symbol known => rfl
  | sum weights kinds items => rfl
  | @product q factors atoms exponents bases =>
    unfold exponent?
    rw [if_neg (by simp [euler])]
    split
    next f hf =>
      have hmem : f ∈ factors := by
        match factors, hf with
        | [], hf => simp [power?] at hf
        | [g], hf =>
          obtain ⟨-, rfl⟩ : _ ∧ g = f := by simpa [power?] using hf
          exact List.mem_cons_self
        | _ :: _ :: _, hf => simp [power?] at hf
      have hne : f.base ≠ euler := fun h => by simpa [h, euler, IsAtom] using atoms f hmem
      rw [if_neg hne]
    next => rfl

/-- **A form raised to a whole number.** -/
theorem denotes_raisedTo {a : Form} (ha : a.Regular S env) {n : ℤ}
    (hn : n < 0 → a.denote env ≠ 0) :
    Denotes S env (a.raisedTo (scalar (.ofInt n))) (a.denote env ^ n) := by
  rw [raisedTo, exponent?_of_regular ha]
  exact denotes_power ha hn

end Form

end Isolate.Symbolic
