import Isolate.Proofs.Evaluation.Terms
import Mathlib.Algebra.BigOperators.Group.List.Basic
import Mathlib.Algebra.Field.Rat

/-!
# Exact values

A tree is read in exact arithmetic by a `Reading`: every constant stands for some rational number,
and powers and functions are any partial functions of their operands.  Under an assignment of
rationals to the variables a tree has an exact value or none; it has none if a divisor is zero
somewhere.

* `exactValue?_sum`, `exactValue?_product` - a sum is the sum of its signed terms, and a product the
  product of its factors, provided that no divisor is zero;
* `exactValue?_perm` - the order of the terms does not matter.
-/

namespace Isolate

/-- How constants, powers and functions are read in exact arithmetic. -/
structure Reading (ν : Type) where
  number : ν → ℚ
  power : ℚ → ℚ → Option ℚ
  function : Builtin → ℚ → Option ℚ

namespace Reading

variable {ν : Type}

/-- A value, or a refusal where there is none. -/
def defined : Option ℚ → Except Fault ℚ
  | some x => .ok x
  | none => .error .undefined

/-- Exact arithmetic; there is no quotient by zero. -/
def kernel (R : Reading ν) : Kernel ν ℚ where
  number := R.number
  zero := 0
  one := 1
  add a b := .ok (a + b)
  sub a b := .ok (a - b)
  mul a b := .ok (a * b)
  div a b := if b = 0 then .error .undefined else .ok (a / b)
  pow a b := defined (R.power a b)
  apply f a := defined (R.function f a)

end Reading

namespace Tree

variable {ν : Type}

/-- The exact value of a tree under an assignment to the variables, if there is one. -/
def exactValue? (R : Reading ν) (ρ : String → ℚ) (t : Tree ν) : Option ℚ :=
  (t.evaluate R.kernel fun name => some (.ok (ρ name))).toOption

/-- The exact value of a tree that has one. -/
def exactValue (R : Reading ν) (ρ : String → ℚ) (t : Tree ν) : ℚ := (t.exactValue? R ρ).getD 0

end Tree

/-! ## Signed values -/

namespace Signed

/-- What a signed value adds to a sum. -/
def addend (s : Signed ℚ) : ℚ := if s.positive then s.item else -s.item

/-- What a signed value multiplies a product by. -/
def factor (s : Signed ℚ) : ℚ := if s.positive then s.item else s.item⁻¹

/-- A signed value can be put into a product unless it is a divisor and zero. -/
def HasFactor (s : Signed ℚ) : Prop := s.positive = false → s.item ≠ 0

end Signed

namespace Reading

variable {ν : Type} (R : Reading ν)

theorem combine_sum (values : List (Signed ℚ)) :
    R.kernel.combine .sum values = .ok (values.map Signed.addend).sum := by
  -- some terms have been added already
  have hfold : ∀ (rest : List (Signed ℚ)) (total : ℚ),
      rest.foldlM (R.kernel.step .sum) total = .ok (total + (rest.map Signed.addend).sum) := by
    intro rest
    induction rest with
    | nil => intro total; simp [pure, Except.pure]
    | cons s rest ih =>
      intro total
      have hs : R.kernel.step .sum total s = .ok (total + s.addend) := by
        obtain ⟨x, positive⟩ := s
        cases positive with
        | true => rfl
        | false => exact congrArg Except.ok (sub_eq_add_neg total x)
      rw [List.foldlM_cons, hs, ok_bind, ih, List.map_cons, List.sum_cons, add_assoc]
  simpa [Kernel.combine, Kernel.start, kernel] using hfold values 0

theorem combine_product {values : List (Signed ℚ)} {v : ℚ} :
    R.kernel.combine .product values = .ok v ↔
      (∀ s ∈ values, s.HasFactor) ∧ v = (values.map Signed.factor).prod := by
  have hstep : ∀ (total x : ℚ) (s : Signed ℚ), R.kernel.step .product total s = .ok x ↔
      s.HasFactor ∧ x = total * s.factor := by
    intro total x s
    obtain ⟨y, positive⟩ := s
    cases positive with
    | true => simp [Kernel.step, kernel, Signed.HasFactor, Signed.factor, eq_comm]
    | false =>
      by_cases hy : y = 0
      · simp [Kernel.step, kernel, Signed.HasFactor, hy]
      · simp [Kernel.step, kernel, Signed.HasFactor, Signed.factor, hy, div_eq_mul_inv, eq_comm]
  -- some factors have been multiplied already
  have hfold : ∀ (rest : List (Signed ℚ)) (total : ℚ),
      rest.foldlM (R.kernel.step .product) total = .ok v ↔
        (∀ s ∈ rest, s.HasFactor) ∧ v = total * (rest.map Signed.factor).prod := by
    intro rest
    induction rest with
    | nil => intro total; simp [pure, Except.pure, eq_comm]
    | cons s rest ih =>
      intro total
      rw [List.foldlM_cons, bind_eq_ok_iff, List.forall_mem_cons, List.map_cons, List.prod_cons,
        ← mul_assoc, and_assoc]
      constructor
      · rintro ⟨x, hx, hrest⟩
        obtain ⟨hs, rfl⟩ := (hstep _ _ _).1 hx
        exact ⟨hs, (ih _).1 hrest⟩
      · rintro ⟨hs, hrest⟩
        exact ⟨_, (hstep _ _ _).2 ⟨hs, rfl⟩, (ih _).2 hrest⟩
  simpa [Kernel.combine, Kernel.start, kernel] using hfold values 1

end Reading

/-! ## Sequences -/

namespace Tree

variable {ν : Type} {R : Reading ν} {ρ : String → ℚ}

theorem exactValue?_eq_some_iff {t : Tree ν} {v : ℚ} :
    t.exactValue? R ρ = some v ↔
      t.evaluate R.kernel (fun name => some (.ok (ρ name))) = .ok v := by
  rw [exactValue?, toOption_eq_some_iff]

theorem exactValue_eq {t : Tree ν} {v : ℚ} (h : t.exactValue? R ρ = some v) :
    t.exactValue R ρ = v := by
  rw [exactValue, h, Option.getD_some]

/-- A variable has the value that is assigned to its name, whatever is stored on it. -/
theorem exactValue?_var (R : Reading ν) (ρ : String → ℚ) (name : String) (stored : Option ν) :
    (var (.text name) stored).exactValue? R ρ = some (ρ name) := by
  simp [exactValue?, evaluate, lookUp, Except.toOption]

theorem exactValue?_pow (R : Reading ν) (ρ : String → ℚ) (base exponent : Tree ν) :
    (pow base exponent).exactValue? R ρ
      = (base.exactValue? R ρ).bind fun x =>
          (exponent.exactValue? R ρ).bind fun y => (R.kernel.pow x y).toOption := by
  simp only [exactValue?, evaluate, toOption_bind]

theorem exactValue?_fn (R : Reading ν) (ρ : String → ℚ) (id : Int) (argument : Tree ν) :
    (fn id argument).exactValue? R ρ
      = (argument.exactValue? R ρ).bind fun x => (R.kernel.call (.int id) x).toOption := by
  simp only [exactValue?, evaluate, toOption_bind]

/-- A sequence has an exact value if all terms have one and they can be put together. -/
theorem exactValue?_seq {kind : SeqKind} {terms : List (Signed (Tree ν))} {v : ℚ} :
    (seq kind terms).exactValue? R ρ = some v ↔
      (∀ t ∈ terms, ∃ x, t.item.exactValue? R ρ = some x) ∧
        R.kernel.combine kind (terms.map (·.map (exactValue R ρ))) = .ok v := by
  have hvalues : (∀ t ∈ terms, ∃ x, t.item.exactValue? R ρ = some x) →
      evaluateTerms R.kernel (fun name => some (.ok (ρ name))) terms
        = .ok (terms.map (·.map (exactValue R ρ))) := by
    intro h
    refine evaluateTerms_eq_ok fun t ht => ?_
    obtain ⟨x, hx⟩ := h t ht
    rw [exactValue_eq hx]
    exact exactValue?_eq_some_iff.1 hx
  rw [exactValue?_eq_some_iff, evaluate, bind_eq_ok_iff]
  constructor
  · rintro ⟨values, hterms, hv⟩
    have hdefined : ∀ t ∈ terms, ∃ x, t.item.exactValue? R ρ = some x := by
      intro t ht
      obtain ⟨x, hx⟩ := exists_of_evaluateTerms hterms ht
      exact ⟨x, exactValue?_eq_some_iff.2 hx⟩
    obtain rfl := Except.ok.inj (hterms.symm.trans (hvalues hdefined))
    exact ⟨hdefined, hv⟩
  · rintro ⟨hdefined, hv⟩
    exact ⟨_, hvalues hdefined, hv⟩

theorem exactValue?_sum {terms : List (Signed (Tree ν))} {v : ℚ} :
    (seq .sum terms).exactValue? R ρ = some v ↔
      (∀ t ∈ terms, ∃ x, t.item.exactValue? R ρ = some x) ∧
        v = (terms.map fun t => (t.map (exactValue R ρ)).addend).sum := by
  rw [exactValue?_seq, R.combine_sum, Except.ok.injEq, List.map_map, eq_comm (b := v)]
  rfl

theorem exactValue?_product {terms : List (Signed (Tree ν))} {v : ℚ} :
    (seq .product terms).exactValue? R ρ = some v ↔
      (∀ t ∈ terms, ∃ x, t.item.exactValue? R ρ = some x) ∧
        (∀ t ∈ terms, (t.map (exactValue R ρ)).HasFactor) ∧
        v = (terms.map fun t => (t.map (exactValue R ρ)).factor).prod := by
  rw [exactValue?_seq, R.combine_product, List.forall_mem_map, List.map_map]
  rfl

/-- The order of the terms does not matter. -/
theorem exactValue?_perm {kind : SeqKind} {terms others : List (Signed (Tree ν))}
    (h : terms.Perm others) :
    (seq kind terms).exactValue? R ρ = (seq kind others).exactValue? R ρ := by
  refine Option.ext fun v => ?_
  cases kind with
  | sum =>
    rw [exactValue?_sum, exactValue?_sum, (h.map _).sum_eq]
    simp only [h.mem_iff]
  | product =>
    rw [exactValue?_product, exactValue?_product, (h.map _).prod_eq]
    simp only [h.mem_iff]

/-- Nor does it matter what a term is, but for its value. -/
theorem exactValue?_term {kind : SeqKind} {before after : List (Signed (Tree ν))} {t u : Tree ν}
    {positive : Bool} (h : t.exactValue? R ρ = u.exactValue? R ρ) :
    (seq kind (before ++ ⟨t, positive⟩ :: after)).exactValue? R ρ
      = (seq kind (before ++ ⟨u, positive⟩ :: after)).exactValue? R ρ := by
  refine Option.ext fun v => ?_
  have hvalue : t.exactValue R ρ = u.exactValue R ρ := by rw [exactValue, exactValue, h]
  rw [exactValue?_seq, exactValue?_seq]
  simp only [List.forall_mem_append, List.forall_mem_cons, List.map_append, List.map_cons,
    Signed.map, h, hvalue]

/-- Of a sequence with an exact value, every term has one. -/
theorem exists_exactValue_of_mem {kind : SeqKind} {terms : List (Signed (Tree ν))} {v : ℚ}
    (h : (seq kind terms).exactValue? R ρ = some v) {t : Signed (Tree ν)} (ht : t ∈ terms) :
    ∃ x, t.item.exactValue? R ρ = some x :=
  (exactValue?_seq.1 h).1 t ht

end Tree

end Isolate
