import Isolate.Proofs.Symbolic.Denotation
import Isolate.Proofs.Symbolic.Pointwise
import Isolate.Symbolic.Value

/-!
# Values of regular forms

In exact arithmetic a regular form is evaluated to the number that it denotes.  A product is written
as a quotient, but what stands in the denominator is not zero, since a regular form does not invert
zero; and a product in a sum is written with the weight of its term in its coefficient.

* `Reading.IsExact` - readings in exact arithmetic, and what the steps of an evaluation give there;
* `Form.exists_factors` - the numerators and denominators of a product;
* `Form.Regular.hasValue` - **the value of a regular form**.
-/

namespace Isolate.Symbolic

variable {S : Set String} {ρ : String → ℚ} {R : Reading Float ℚ}

/-- A reading in exact arithmetic, where the symbols in `S` have given values. -/
structure Reading.IsExact (R : Reading Float ℚ) (S : Set String) (ρ : String → ℚ) : Prop where
  kernel : R.kernel = Isolate.Reading.whole.kernel
  constant (q : ℚ) : R.constant (.exact q) = .ok q
  symbol {name : String} (known : name ∈ S) : R.symbol name = .ok (ρ name)

namespace Scalar

theorem isNegative_exact (q : ℚ) : (exact q).isNegative = decide (q < 0) := by
  simp [isNegative, Rat.num_neg]

theorem abs_exact (q : ℚ) : (exact q).abs = .exact |q| := by
  rw [abs, isNegative_exact]
  by_cases hq : q < 0
  · simp [hq, neg, abs_of_neg hq]
  · simp [hq, abs_of_nonneg (not_lt.1 hq)]

end Scalar

/-- A quotient step by step: the constant, the numerators, the denominators, the sign. -/
theorem Reading.quotient_eq_bind (R : Reading Float ℚ) (c : Scalar)
    (numerators denominators : List ℚ) :
    R.quotient c numerators denominators
      = (if c.abs = .one ∧ !numerators.isEmpty then .ok [] else (R.constant c.abs).map ([·])) >>=
        fun first => R.multiply (first ++ numerators) >>= fun top =>
        (if denominators.isEmpty then .ok top
          else R.multiply denominators >>= R.kernel.div top) >>= fun size =>
        if c.isNegative then R.constant (.ofInt (-1)) >>= fun sign => R.kernel.mul sign size
        else .ok size := by
  rw [quotient]
  cases denominators with
  | nil => split <;> rfl
  | cons d denominators =>
    split <;> simp only [List.isEmpty_cons, Bool.false_eq_true, if_false, bind_assoc]

namespace Reading.IsExact

theorem add_eq (hR : R.IsExact S ρ) (values : List ℚ) : R.add values = .ok values.sum := by
  have hadd : R.kernel.add = fun x y => pure (x + y) := by
    rw [hR.kernel]
    rfl
  cases values with
  | nil => exact hR.constant 0
  | cons x rest =>
    rw [add, hadd, List.foldlM_pure, List.sum_eq_foldl, List.foldl_cons, zero_add]
    rfl

theorem multiply_eq (hR : R.IsExact S ρ) (values : List ℚ) :
    R.multiply values = .ok values.prod := by
  have hmul : R.kernel.mul = fun x y => pure (x * y) := by
    rw [hR.kernel]
    rfl
  cases values with
  | nil => exact hR.constant 1
  | cons x rest =>
    rw [multiply, hmul, List.foldlM_pure, List.prod_eq_foldl, List.foldl_cons, one_mul]
    rfl

/-- A whole power, unless zero is inverted. -/
theorem raise_eq (hR : R.IsExact S ρ) {x : ℚ} {n : ℤ} (hn : n < 0 → x ≠ 0) :
    R.raise (.scalar (.ofInt n)) x n = .ok (x ^ n) := by
  rw [raise]
  split
  next hone =>
    obtain rfl : n = 1 := by simpa [Form.one, Scalar.ofInt, Scalar.one] using hone
    rw [zpow_one]
  next =>
    have hhalf : Form.scalar (.ofInt n) ≠ .scalar (.exact (1 / 2)) := by
      intro h
      have hden := congrArg Rat.den (Scalar.exact.inj (Form.scalar.inj h))
      exact absurd hden (by rw [Rat.den_intCast]; decide +kernel)
    have hpower : ¬(x = 0 ∧ n < 0) := fun h => hn h.2 h.1
    have hpow : R.kernel.pow x n = Isolate.Reading.defined (Partial.wholePower x n) := by
      rw [hR.kernel]
      rfl
    rw [if_neg hhalf, hpow, Partial.wholePower_intCast, if_neg hpower]
    rfl

/-- The minus sign of a constant is written last. -/
theorem signed_eq (hR : R.IsExact S ρ) (q size : ℚ) :
    (if (Scalar.exact q).isNegative then
        R.constant (.ofInt (-1)) >>= fun sign => R.kernel.mul sign size
      else .ok size) = .ok (if q < 0 then -size else size) := by
  have hminus : R.constant (.ofInt (-1)) = .ok (-1) := hR.constant (-1)
  have hmul : R.kernel.mul (-1) size = .ok (-1 * size) := by
    rw [hR.kernel]
    rfl
  rw [Scalar.isNegative_exact, hminus, ok_bind, hmul, neg_one_mul]
  by_cases hq : q < 0 <;> simp [hq]

/-- The denominators are multiplied first, if there are any. -/
theorem divided_eq (hR : R.IsExact S ρ) (top : ℚ) {denominators : List ℚ}
    (hd : denominators.prod ≠ 0) :
    (if denominators.isEmpty then .ok top else R.multiply denominators >>= R.kernel.div top)
      = .ok (top / denominators.prod) := by
  cases denominators with
  | nil => rw [List.prod_nil, div_one, List.isEmpty_nil, if_pos rfl]
  | cons d denominators =>
    have hdiv : R.kernel.div top (d :: denominators).prod
        = .ok (top / (d :: denominators).prod) := by
      rw [hR.kernel]
      exact if_neg hd
    rw [List.isEmpty_cons, if_neg (by simp), hR.multiply_eq, ok_bind, hdiv]

/-- A constant multiple of a quotient. -/
theorem quotient_eq (hR : R.IsExact S ρ) (q : ℚ) (numerators : List ℚ) {denominators : List ℚ}
    (hd : denominators.prod ≠ 0) :
    R.quotient (.exact q) numerators denominators
      = .ok (q * (numerators.prod / denominators.prod)) := by
  -- the constant is written without its sign, and not at all if it is one
  have hfirst : ∃ first : List ℚ, first.prod = |q| ∧
      (if (Scalar.exact q).abs = .one ∧ !numerators.isEmpty then .ok []
        else (R.constant (Scalar.exact q).abs).map ([·])) = .ok first := by
    rw [Scalar.abs_exact]
    split
    next h => exact ⟨[], (Scalar.exact.inj h.1).symm, rfl⟩
    next => exact ⟨[|q|], List.prod_singleton, by rw [hR.constant]; rfl⟩
  obtain ⟨first, hprod, hwritten⟩ := hfirst
  have hsize : (if q < 0 then -(|q| * numerators.prod / denominators.prod)
      else |q| * numerators.prod / denominators.prod)
      = q * (numerators.prod / denominators.prod) := by
    rw [mul_div_assoc]
    split
    next hq => rw [abs_of_neg hq, neg_mul, neg_neg]
    next hq => rw [abs_of_nonneg (not_lt.1 hq)]
  rw [quotient_eq_bind, hwritten, ok_bind, hR.multiply_eq, ok_bind, List.prod_append, hprod,
    hR.divided_eq _ hd, ok_bind, hR.signed_eq, hsize]

end Reading.IsExact

namespace Form

/-- The value of a form in exact arithmetic, alone and as a term of a sum. -/
structure HasValue (R : Reading Float ℚ) (ρ : String → ℚ) (a : Form) : Prop where
  alone : a.evaluate R = .ok (a.denote ρ)
  weighted (hitem : a.IsItem) (q : ℚ) (rest : List (Weighted Form)) :
    evaluateTerms R (⟨.exact q, a⟩ :: rest)
      = (evaluateTerms R rest).map (q * a.denote ρ :: ·)

theorem ofInt_ne_exact {q : ℚ} (hq : q.den ≠ 1) (n : ℤ) : Scalar.ofInt n ≠ .exact q :=
  fun h => hq ((congrArg Rat.den (Scalar.exact.inj h)).symm.trans (Rat.den_intCast n))

theorem isHalf_ofInt (n : ℤ) : isHalf (scalar (.ofInt n)).scalar? = false := by
  have hpos := ofInt_ne_exact (q := 1 / 2) (by decide +kernel) n
  have hneg := ofInt_ne_exact (q := -1 / 2) (by decide +kernel) n
  rw [isHalf, scalar?, Bool.or_eq_false_iff, beq_eq_false_iff_ne, beq_eq_false_iff_ne]
  exact ⟨fun h => hpos (Option.some.inj h), fun h => hneg (Option.some.inj h)⟩

/-- A whole power is written as a divisor if its exponent is negative, unless it stands alone. -/
theorem divisorExponent?_ofInt (alone : Bool) (n : ℤ) :
    divisorExponent? alone (scalar (.ofInt n))
      = if n < 0 ∧ alone = false then some (.ofInt (-n)) else none := by
  have hhalf : ((n : ℤ) : ℚ) ≠ -1 / 2 := fun h =>
    ofInt_ne_exact (q := -1 / 2) (by decide +kernel) n (congrArg Scalar.exact h)
  have hneg : Scalar.exact (-(n : ℚ)) = .ofInt (-n) := congrArg Scalar.exact (Int.cast_neg n).symm
  simp [divisorExponent?, Scalar.ofInt, hhalf]

/-- The numerators and the denominators of a product of regular factors. -/
theorem exists_factors (hR : R.IsExact S ρ) (alone : Bool) {factors : List (Powered Form)}
    (hfactors : ∀ f ∈ factors, f.Regular S ρ)
    (hbases : ∀ f ∈ factors, f.base.evaluate R = .ok (f.base.denote ρ)) :
    ∃ numerators denominators : List ℚ,
      evaluateFactors R alone factors = .ok (numerators, denominators) ∧
        denominators.prod ≠ 0 ∧
        numerators.prod / denominators.prod = (factors.map (Powered.denote ρ)).prod := by
  induction factors with
  | nil => exact ⟨[], [], rfl, one_ne_zero, div_one _⟩
  | cons f factors ih =>
    obtain ⟨hf, hfactors⟩ := List.forall_mem_cons.1 hfactors
    obtain ⟨hbase, hbases⟩ := List.forall_mem_cons.1 hbases
    obtain ⟨numerators, denominators, hothers, hne, hvalue⟩ := ih hfactors hbases
    have hatom := hf.atom
    obtain ⟨b, e⟩ := f
    obtain ⟨n, rfl, hn⟩ := hf.exponent
    have heuler : b ≠ euler := by
      rintro rfl
      exact hatom
    have himaginary : isImaginary b (scalar (.ofInt n)) = false := by
      cases b with
      | scalar c => exact hatom.elim
      | _ => rfl
    rw [List.map_cons, List.prod_cons, ← hvalue, Powered.denote_mk, evaluateFactors]
    simp only [himaginary, isHalf_ofInt, heuler, hbase, ok_bind, Bool.false_eq_true, if_false,
      Bool.false_and, Bool.or_false, decide_false, divisorExponent?_ofInt]
    by_cases hdivides : n < 0 ∧ alone = false
    · have hb : b.denote ρ ^ (-n) ≠ 0 := zpow_ne_zero _ (hn hdivides.1)
      have hexponent : R.constant (.ofInt (-n)) = .ok (-n : ℤ) := hR.constant _
      have hinverse := hR.raise_eq (x := b.denote ρ) (n := -n) fun h => absurd hdivides.1 (by omega)
      refine ⟨numerators, b.denote ρ ^ (-n) :: denominators, ?_, ?_, ?_⟩
      · rw [if_pos hdivides]
        simp only [hexponent, ok_bind, hinverse, hothers]
      · rw [List.prod_cons]
        exact mul_ne_zero hb hne
      · rw [List.prod_cons, zpow_neg, ← div_div, div_inv_eq_mul, mul_comm, mul_div_assoc]
    · have hexponent : (scalar (.ofInt n)).evaluate R = .ok (n : ℚ) := hR.constant n
      have hpower := hR.raise_eq hn
      refine ⟨b.denote ρ ^ n :: numerators, denominators, ?_, hne, ?_⟩
      · rw [if_neg hdivides]
        simp only [hexponent, ok_bind, hpower, hothers]
      · rw [List.prod_cons, mul_div_assoc]

theorem evaluate_product (hR : R.IsExact S ρ) (q : ℚ) {factors : List (Powered Form)}
    (hfactors : ∀ f ∈ factors, f.Regular S ρ)
    (hbases : ∀ f ∈ factors, f.base.evaluate R = .ok (f.base.denote ρ)) :
    (product (.exact q) factors).evaluate R = .ok ((product (.exact q) factors).denote ρ) := by
  obtain ⟨numerators, denominators, hvalues, hne, hquotient⟩ :=
    exists_factors hR (Scalar.exact q = .one ∧ factors.length = 1) hfactors hbases
  have hvalue := hR.quotient_eq q numerators hne
  rw [hquotient] at hvalue
  rw [evaluate, hvalues, ok_bind, denote_product]
  exact hvalue

/-- A symbol or a sum that has a value has one as a term, too. -/
theorem HasValue.of_atom (hR : R.IsExact S ρ) {a : Form} (hatom : a.IsAtom)
    (ha : a.evaluate R = .ok (a.denote ρ)) : HasValue R ρ a where
  alone := ha
  weighted _ q rest := by
    have hnone : ([] : List ℚ).prod ≠ 0 := one_ne_zero
    have hquotient := hR.quotient_eq q [a.denote ρ] hnone
    rw [List.prod_singleton, List.prod_nil, div_one] at hquotient
    cases a with
    | symbol name =>
      simp only [evaluateTerms, ha, ok_bind, hquotient]
      rfl
    | sum terms =>
      simp only [evaluateTerms, ha, ok_bind, hquotient]
      rfl
    | _ => exact hatom.elim

theorem evaluateTerms_eq {terms : List (Weighted Form)}
    (hterms : ∀ t ∈ terms, t.Regular S ρ) (hitems : ∀ t ∈ terms, HasValue R ρ t.item) :
    evaluateTerms R terms = .ok (terms.map (Weighted.denote ρ)) := by
  induction terms with
  | nil => rfl
  | cons t terms ih =>
    obtain ⟨ht, hothers⟩ := List.forall_mem_cons.1 hterms
    obtain ⟨hitem, hvalues⟩ := List.forall_mem_cons.1 hitems
    obtain ⟨w, a⟩ := t
    obtain ⟨q, rfl⟩ := ht.weight
    rw [hitem.weighted ht.kind, ih hothers hvalues]
    rfl

/-- **A regular form has the value in exact arithmetic that it denotes.** -/
theorem Regular.hasValue (hR : R.IsExact S ρ) {a : Form} (ha : a.Regular S ρ) :
    HasValue R ρ a := by
  induction ha with
  | scalar q =>
    refine ⟨hR.constant q, fun hitem r rest => ?_⟩
    obtain rfl : q = 1 := Scalar.exact.inj hitem
    simp only [evaluateTerms, hR.constant, ok_bind, denote_scalar, Rat.cast_one, mul_one]
    rfl
  | symbol known => exact .of_atom hR trivial (hR.symbol known)
  | @sum terms weights kinds items ih =>
    have hterms := regular_sum.1 (Regular.sum weights kinds items)
    refine .of_atom hR trivial ?_
    rw [evaluate, evaluateTerms_eq hterms ih, ok_bind, hR.add_eq, denote_sum]
  | @product q factors atoms exponents bases ih =>
    have hfactors := (regular_product.1 (Regular.product q atoms exponents bases)).2
    have hbases := fun f hf => (ih f hf).alone
    refine ⟨evaluate_product hR q hfactors hbases, fun _ r rest => ?_⟩
    -- the term is worth as much as the product with the weight in its coefficient
    have hvalue : (Form.product (.exact (r * q)) factors).evaluate R
        = .ok (r * (Form.product (.exact q) factors).denote ρ) := by
      rw [evaluate_product hR (r * q) hfactors hbases, denote_product, denote_product,
        ← mul_assoc]
      rfl
    have hmul : (Scalar.exact r).mul (.exact q) = .exact (r * q) := rfl
    rw [evaluate, bind_eq_ok_iff] at hvalue
    obtain ⟨parts, hparts, hquotient⟩ := hvalue
    simp only [evaluateTerms, hmul, hparts, ok_bind, hquotient]
    rfl

end Form

end Isolate.Symbolic
