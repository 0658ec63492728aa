import Isolate.Proofs.Symbolic.Fraction
import Isolate.Proofs.Symbolic.Product
import Mathlib.Algebra.CharP.Algebra
import Mathlib.RingTheory.Localization.FractionRing
import Mathlib.RingTheory.MvPolynomial.Basic

/-!
# Regular forms as rational functions

A regular form stands for a rational function, and the fraction that is found for it has the value
of the form.  Hence where the values of the symbols are `Generic`, a regular form is found to be
zero exactly if it denotes zero.

* `Form.fraction?_spec` - the fraction of a regular form;
* `Form.isZero_iff` - regular forms that are zero;
* `Functions` - the field of rational functions, where the names are generic.
-/

namespace Isolate.Symbolic

open MvPolynomial

variable {F : Type} [Field F] [CharZero F] {φ : MvPolynomial ℕ ℚ →+* F} {S : Set String}
  {env : String → F}

namespace Form

/-- A fraction is found for a form, and it has the value of the form. -/
def HasFraction (φ : MvPolynomial ℕ ℚ →+* F) (env : String → F) (names : List String) (a : Form) :
    Prop :=
  ∃ f, a.fraction? names = some f ∧ f.Proper ∧ f.value φ = a.denote env

variable {names : List String}

omit [CharZero F] in
theorem hasFraction_scalar (q : ℚ) : HasFraction φ env names (scalar (.exact q)) :=
  ⟨.const q, rfl, Fraction.proper_const q, Fraction.value_const q⟩

omit [CharZero F] in
theorem hasFraction_symbol (henv : ∀ i (h : i < names.length), env names[i] = φ (X i))
    {name : String} (h : name ∈ names) : HasFraction φ env names (symbol name) := by
  have hsome : (names.idxOf? name).isSome = true := by simpa using h
  obtain ⟨i, hi⟩ := Option.isSome_iff_exists.1 hsome
  obtain ⟨hlt, hname, -⟩ := List.idxOf?_eq_some_iff.1 hi
  refine ⟨.symbol i, ?_, Fraction.proper_symbol i, ?_⟩
  · rw [fraction?, hi]
    rfl
  · rw [Fraction.value_symbol, ← henv i hlt, denote]
    exact congrArg env (by simpa using hname)

/-- The fractions of some terms. -/
theorem termFractions?_spec (hφ : Function.Injective φ) {terms : List (Weighted Form)}
    (hweights : ∀ t ∈ terms, ∃ q, t.weight = .exact q)
    (hitems : ∀ t ∈ terms, HasFraction φ env names t.item) :
    ∃ fs, termFractions? names terms = some fs ∧ (∀ f ∈ fs, f.Proper) ∧
      (fs.map (Fraction.value φ)).sum = (terms.map (Weighted.denote env)).sum := by
  induction terms with
  | nil => exact ⟨[], rfl, List.forall_mem_nil _, rfl⟩
  | cons t terms ih =>
    obtain ⟨hweight, hweights⟩ := List.forall_mem_cons.1 hweights
    obtain ⟨hitem, hitems⟩ := List.forall_mem_cons.1 hitems
    obtain ⟨fs, hfs, hproper, hvalue⟩ := ih hweights hitems
    obtain ⟨w, a⟩ := t
    obtain ⟨q, rfl⟩ := hweight
    obtain ⟨f, hf, hfproper, hfvalue⟩ := hitem
    have hconst := Fraction.proper_const q
    refine ⟨(Fraction.const q).mul f :: fs, ?_,
      List.forall_mem_cons.2 ⟨Fraction.proper_mul hφ hconst hfproper, hproper⟩, ?_⟩
    · simp only [termFractions?, hf, hfs, Scalar.rational?]
      rfl
    · rw [List.map_cons, List.sum_cons, hvalue, Fraction.value_mul hφ hconst hfproper,
        Fraction.value_const, hfvalue, List.map_cons, List.sum_cons]
      rfl

/-- The fraction of a product of factors. -/
theorem factorsFraction?_spec (hφ : Function.Injective φ) {factors : List (Powered Form)}
    (hexponents : ∀ f ∈ factors, ∃ n : ℤ, f.exponent = .scalar (.ofInt n) ∧
      (n < 0 → f.base.denote env ≠ 0))
    (hbases : ∀ f ∈ factors, HasFraction φ env names f.base) :
    ∃ g, factorsFraction? names factors = some g ∧ g.Proper ∧
      g.value φ = (factors.map (Powered.denote env)).prod := by
  induction factors with
  | nil => exact ⟨.const 1, rfl, Fraction.proper_const 1, by simp [Fraction.value_const]⟩
  | cons f factors ih =>
    obtain ⟨hexponent, hexponents⟩ := List.forall_mem_cons.1 hexponents
    obtain ⟨hbase, hbases⟩ := List.forall_mem_cons.1 hbases
    obtain ⟨g, hg, hgproper, hgvalue⟩ := ih hexponents hbases
    obtain ⟨b, e⟩ := f
    obtain ⟨n, rfl, hn⟩ := hexponent
    obtain ⟨k, hk, hkproper, hkvalue⟩ := hbase
    obtain ⟨power, hpower, hpproper, hpvalue⟩ :=
      Fraction.pow?_spec hkproper (n := n) fun hneg => hkvalue ▸ hn hneg
    refine ⟨power.mul g, ?_, Fraction.proper_mul hφ hpproper hgproper, ?_⟩
    · simp only [factorsFraction?, integer?_ofInt, hk, hpower, hg, Option.bind_eq_bind,
        Option.bind_some]
    · rw [Fraction.value_mul hφ hpproper hgproper, hpvalue, hkvalue, hgvalue, List.map_cons,
        List.prod_cons, Powered.denote_mk]

theorem termOccurrences_eq (terms : List (Weighted Form)) :
    termOccurrences terms = terms.flatMap (·.item.occurrences) := by
  induction terms with
  | nil => rfl
  | cons t terms ih => rw [termOccurrences, ih, List.flatMap_cons]

theorem factorOccurrences_eq (factors : List (Powered Form)) :
    factorOccurrences factors
      = factors.flatMap fun f => f.base.occurrences ++ f.exponent.occurrences := by
  induction factors with
  | nil => rfl
  | cons f factors ih => rw [factorOccurrences, ih, List.flatMap_cons, List.append_assoc]

/-- **A regular form stands for a rational function.** -/
theorem fraction?_spec (hφ : Function.Injective φ)
    (henv : ∀ i (h : i < names.length), env names[i] = φ (X i)) {a : Form} (ha : a.Regular S env)
    (hnames : ∀ s ∈ a.occurrences, s ∈ names) : HasFraction φ env names a := by
  induction ha with
  | scalar q => exact hasFraction_scalar q
  | symbol known => exact hasFraction_symbol henv (hnames _ (by simp [occurrences]))
  | @sum terms weights kinds items ih =>
    rw [occurrences, termOccurrences_eq] at hnames
    have hitems : ∀ t ∈ terms, HasFraction φ env names t.item := fun t ht =>
      ih t ht fun s hs => hnames s (List.mem_flatMap.2 ⟨t, ht, hs⟩)
    obtain ⟨fs, hfs, hproper, hvalue⟩ := termFractions?_spec hφ weights hitems
    obtain ⟨hsum, hsumValue⟩ := Fraction.sum_spec hφ hproper
    refine ⟨.sum fs, ?_, hsum, ?_⟩
    · rw [fraction?, hfs]
      rfl
    · rw [hsumValue, hvalue, denote_sum]
  | @product q factors atoms exponents bases ih =>
    rw [occurrences, factorOccurrences_eq] at hnames
    have hbases : ∀ f ∈ factors, HasFraction φ env names f.base := fun f hf =>
      ih f hf fun s hs => hnames s (List.mem_flatMap.2 ⟨f, hf, List.mem_append_left _ hs⟩)
    obtain ⟨g, hg, hproper, hvalue⟩ := factorsFraction?_spec hφ exponents hbases
    have hconst := Fraction.proper_const q
    refine ⟨(Fraction.const q).mul g, ?_, Fraction.proper_mul hφ hconst hproper, ?_⟩
    · simp only [fraction?, hg, Scalar.rational?]
      rfl
    · rw [Fraction.value_mul hφ hconst hproper, Fraction.value_const, hvalue, denote_product]
      rfl

/-- Whatever symbols are chosen, polynomials in them can be told apart by their values. -/
def Generic (env : String → F) : Prop :=
  ∀ names : List String, names.Nodup → ∃ φ : MvPolynomial ℕ ℚ →+* F, Function.Injective φ ∧
    ∀ i (h : i < names.length), env names[i] = φ (X i)

/-- **A regular form is found to be zero exactly if it denotes zero.** -/
theorem isZero_iff (henv : Generic env) {a : Form} (ha : a.Regular S env) :
    a.isZero = true ↔ a.denote env = 0 := by
  obtain ⟨φ, hφ, hnames⟩ := henv _ (nodup_eraseDups a.occurrences)
  obtain ⟨f, hf, hproper, hvalue⟩ :=
    fraction?_spec hφ hnames ha fun s hs => List.mem_eraseDups.2 hs
  rw [← hvalue, ← Fraction.isZero_iff hφ hproper]
  cases ha with
  | scalar q =>
    obtain rfl : Fraction.const q = f := Option.some.inj hf
    simp [isZero, Scalar.isZero, Fraction.isZero, Fraction.const]
  | _ => rw [isZero, hf]; simp

end Form

/-! ## The field of rational functions -/

/-- The field of rational functions in the names. -/
abbrev Functions : Type := FractionRing (MvPolynomial String ℚ)

namespace Functions

/-- A polynomial in the names as a rational function. -/
noncomputable def ofPolynomial : MvPolynomial String ℚ →+* Functions :=
  algebraMap (MvPolynomial String ℚ) Functions

/-- A name as a rational function. -/
noncomputable def symbol (name : String) : Functions := ofPolynomial (X name)

theorem ofPolynomial_injective : Function.Injective ofPolynomial :=
  IsFractionRing.injective (MvPolynomial String ℚ) Functions

/-- Some names can be followed by infinitely many others. -/
theorem exists_places {names : List String} (hnames : names.Nodup) :
    ∃ place : ℕ → String, Function.Injective place ∧
      ∀ i (h : i < names.length), place i = names[i] := by
  obtain ⟨bound, hbound⟩ := (names.map String.length).toFinset.exists_le
  have hlength : ∀ name ∈ names, name.length ≤ bound := fun name hname =>
    hbound _ (List.mem_toFinset.2 (List.mem_map_of_mem hname))
  -- the others are longer than all of them, each of its own length
  let place (i : ℕ) : String :=
    if h : i < names.length then names[i] else String.ofList (List.replicate (bound + 1 + i) 'z')
  have hin : ∀ i (h : i < names.length), place i = names[i] := fun i h => dif_pos h
  have hout : ∀ i, ¬i < names.length → (place i).length = bound + 1 + i := by
    intro i h
    simp [place, dif_neg h]
  have hshort : ∀ i, i < names.length → (place i).length ≤ bound := by
    intro i h
    rw [hin i h]
    exact hlength _ (List.getElem_mem h)
  refine ⟨place, ?_, hin⟩
  intro i j hij
  have hlengths : (place i).length = (place j).length := congrArg String.length hij
  by_cases hi : i < names.length
  · have hi' := hshort i hi
    by_cases hj : j < names.length
    · rw [hin i hi, hin j hj] at hij
      exact (List.Nodup.getElem_inj_iff hnames).1 hij
    · have hj' := hout j hj
      omega
  · have hi' := hout i hi
    by_cases hj : j < names.length
    · have hj' := hshort j hj
      omega
    · have hj' := hout j hj
      omega

/-- **Different names are independent.** -/
theorem generic : Form.Generic symbol := by
  intro names hnames
  obtain ⟨place, hinjective, hplace⟩ := exists_places hnames
  refine ⟨ofPolynomial.comp (rename place).toRingHom,
    ofPolynomial_injective.comp (rename_injective _ hinjective), fun i hi => ?_⟩
  simp [symbol, hplace i hi]

end Functions

end Isolate.Symbolic
