import Isolate.Proofs.Evaluation.Exact
import Mathlib.Data.Option.NAry
import Mathlib.Tactic.FieldSimp

/-!
# Placeholders as symbols

Where placeholders are symbols of their name, like variables, a tree has a value under an assignment
to all the symbols, or none.  The value of a node is a partial operation on the values of its
children, so these equations hold with or without values.

* `Tree.symbolValue?` - the value of a tree where every leaf with a name is a symbol;
* `Tree.symbolValue?_sum_cons`, `Tree.symbolValue?_product` - sums term by term, and products as the
  product of the factors over the product of the divisors.
-/

namespace Isolate

/-! ## Partial arithmetic -/

namespace Partial

/-- The sum of two values, if there are both. -/
def add : Option ℚ → Option ℚ → Option ℚ := Option.map₂ (· + ·)

/-- The product of two values, if there are both. -/
def mul : Option ℚ → Option ℚ → Option ℚ := Option.map₂ (· * ·)

/-- A value with the sign of a term. -/
def signed (positive : Bool) : Option ℚ → Option ℚ := Option.map fun x => if positive then x else -x

/-- A quotient, if the divisor is not zero. -/
def div (a b : Option ℚ) : Option ℚ :=
  a.bind fun x => b.bind fun y => if y = 0 then none else some (x / y)

/-- The product of some values, if there are all of them. -/
def prod (values : List (Option ℚ)) : Option ℚ := values.foldr mul (some 1)

theorem add_assoc (a b c : Option ℚ) : add (add a b) c = add a (add b c) :=
  Option.map₂_assoc Rat.add_assoc

theorem add_zero (a : Option ℚ) : add a (some 0) = a := by
  cases a <;> simp [add]

theorem zero_add (a : Option ℚ) : add (some 0) a = a := by
  cases a <;> simp [add]

theorem mul_assoc (a b c : Option ℚ) : mul (mul a b) c = mul a (mul b c) :=
  Option.map₂_assoc Rat.mul_assoc

theorem mul_one (a : Option ℚ) : mul a (some 1) = a := by
  cases a <;> simp [mul]

theorem div_one (a : Option ℚ) : div a (some 1) = a := by
  cases a <;> simp [div]

theorem signed_true (a : Option ℚ) : signed true a = a := by
  cases a <;> rfl

/-- One more factor of a quotient. -/
theorem mul_div (a b c : Option ℚ) : div (mul a b) c = mul a (div b c) := by
  cases a with
  | none => rfl
  | some x =>
    cases b with
    | none => rfl
    | some y =>
      cases c with
      | none => rfl
      | some z =>
        by_cases hz : z = 0
        · simp [div, mul, hz]
        · simp [div, mul, hz, Rat.div_def, Rat.mul_assoc]

/-- One more divisor of a quotient. -/
theorem div_mul (a b c : Option ℚ) : div a (mul b c) = div (div a c) b := by
  cases a with
  | none => rfl
  | some x =>
    cases b with
    | none =>
      cases c with
      | none => rfl
      | some z => by_cases hz : z = 0 <;> simp [div, mul, hz]
    | some y =>
      cases c with
      | none => rfl
      | some z =>
        by_cases hy : y = 0
        · by_cases hz : z = 0 <;> simp [div, mul, hy, hz]
        · by_cases hz : z = 0
          · simp [div, mul, hz]
          · have hquotient : x / (y * z) = x / z / y := by
              field_simp
            simp [div, mul, hy, hz, hquotient]

end Partial

/-! ## Symbols -/

namespace Tree

variable {ν : Type}

mutual

/-- A tree with variables in place of the placeholders. -/
def nameHoles : Tree ν → Tree ν
  | hole name => var name none
  | seq kind terms => seq kind (nameHolesTerms terms)
  | pow base exponent => pow (nameHoles base) (nameHoles exponent)
  | fn id argument => fn id (nameHoles argument)
  | t => t

/-- Terms with variables in place of the placeholders. -/
def nameHolesTerms : List (Signed (Tree ν)) → List (Signed (Tree ν))
  | [] => []
  | ⟨t, positive⟩ :: rest => ⟨nameHoles t, positive⟩ :: nameHolesTerms rest

end

/-- The exact value of a tree where placeholders are symbols of their name, if there is one. -/
def symbolValue? (R : Reading ν) (ρ : String → ℚ) (t : Tree ν) : Option ℚ :=
  t.nameHoles.exactValue? R ρ

variable (R : Reading ν) (ρ : String → ℚ)

theorem symbolValue?_const (x : ν) : (const x).symbolValue? R ρ = some (R.number x) := rfl

theorem symbolValue?_var (name : String) (stored : Option ν) :
    (var (.text name) stored).symbolValue? R ρ = some (ρ name) :=
  exactValue?_var R ρ name stored

theorem symbolValue?_hole (name : String) :
    (hole (.text name)).symbolValue? R ρ = some (ρ name) :=
  exactValue?_var R ρ name none

theorem symbolValue?_pow (b e : Tree ν) :
    (pow b e).symbolValue? R ρ =
      (b.symbolValue? R ρ).bind fun x => (e.symbolValue? R ρ).bind (R.power x) := by
  simp only [symbolValue?, nameHoles, exactValue?, evaluate]
  cases b.nameHoles.evaluate R.kernel (fun name => some (.ok (ρ name))) with
  | error fault => rfl
  | ok x =>
    cases e.nameHoles.evaluate R.kernel (fun name => some (.ok (ρ name))) with
    | error fault => rfl
    | ok y =>
      simp only [ok_bind, Reading.kernel, Reading.defined, Except.toOption, Option.bind_some]
      cases R.power x y <;> rfl

theorem symbolValue?_fn (f : Builtin) (a : Tree ν) :
    (fn f.code a).symbolValue? R ρ =
      (a.symbolValue? R ρ).bind fun x => if f.hasRule then R.function f x else none := by
  simp only [symbolValue?, nameHoles, exactValue?, evaluate]
  cases a.nameHoles.evaluate R.kernel (fun name => some (.ok (ρ name))) with
  | error fault => rfl
  | ok x =>
    simp only [ok_bind, Except.toOption, Option.bind_some, Kernel.call]
    by_cases hf : f.hasRule = true
    · have hcheck : Builtin.check (.int f.code) = .ok f := Builtin.check_eq_ok_iff.2 ⟨rfl, hf⟩
      rw [hcheck, ok_bind, if_pos hf]
      simp only [Reading.kernel, Reading.defined]
      cases R.function f x <;> rfl
    · have hcheck : Builtin.check (.int f.code) = .error (.unsupported (.text f.name)) := by
        simp [Builtin.check, hf]
      rw [hcheck, error_bind, if_neg hf]

/-! ## Sequences -/

theorem symbolValue?_sum_nil : (seq .sum []).symbolValue? R ρ = some 0 := rfl

theorem symbolValue?_product_nil : (seq .product []).symbolValue? R ρ = some 1 := rfl

/-- **A sum is its first term and the others.** -/
theorem symbolValue?_sum_cons (t : Signed (Tree ν)) (ts : List (Signed (Tree ν))) :
    (seq .sum (t :: ts)).symbolValue? R ρ =
      Partial.add (Partial.signed t.positive (t.item.symbolValue? R ρ))
        ((seq .sum ts).symbolValue? R ρ) := by
  simp only [symbolValue?, nameHoles, nameHolesTerms, exactValue?, evaluate, evaluateTerms]
  cases t.item.nameHoles.evaluate R.kernel (fun name => some (.ok (ρ name))) with
  | error fault => rfl
  | ok x =>
    cases evaluateTerms R.kernel (fun name => some (.ok (ρ name))) (nameHolesTerms ts) with
    | error fault => rfl
    | ok others =>
      simp only [ok_bind, R.combine_sum, Except.toOption, List.map_cons, List.sum_cons]
      rfl

theorem toOption_combine_product {values : List (Signed ℚ)} {v : ℚ} :
    (R.kernel.combine .product values).toOption = some v ↔
      (∀ s ∈ values, s.HasFactor) ∧ v = (values.map Signed.factor).prod := by
  rw [← R.combine_product]
  cases R.kernel.combine .product values <;> simp [Except.toOption]

theorem toOption_combine_product_cons (s : Signed ℚ) (values : List (Signed ℚ)) :
    (R.kernel.combine .product (s :: values)).toOption =
      if s.positive then
        Partial.mul (some s.item) (R.kernel.combine .product values).toOption
      else Partial.div (R.kernel.combine .product values).toOption (some s.item) := by
  refine Option.ext fun v => ?_
  rw [toOption_combine_product, List.forall_mem_cons, List.map_cons, List.prod_cons]
  by_cases hp : s.positive = true
  · rw [if_pos hp]
    constructor
    · rintro ⟨⟨-, hvalues⟩, hv⟩
      have hrest := (toOption_combine_product R).2 ⟨hvalues, rfl⟩
      rw [hrest, hv]
      simp [Partial.mul, Signed.factor, hp]
    · intro h
      cases hrest : (R.kernel.combine .product values).toOption with
      | none => simp [hrest, Partial.mul] at h
      | some y =>
        obtain ⟨hvalues, hy⟩ := (toOption_combine_product R).1 hrest
        refine ⟨⟨fun hn => absurd hp (by simp [hn]), hvalues⟩, ?_⟩
        rw [← hy]
        simpa [hrest, Partial.mul, Signed.factor, hp, eq_comm] using h
  · rw [if_neg hp]
    constructor
    · rintro ⟨⟨hs, hvalues⟩, hv⟩
      have hrest := (toOption_combine_product R).2 ⟨hvalues, rfl⟩
      have hzero : s.item ≠ 0 := hs (by simpa using hp)
      rw [hrest, hv]
      simp [Partial.div, Signed.factor, hp, hzero, div_eq_inv_mul]
    · intro h
      cases hrest : (R.kernel.combine .product values).toOption with
      | none => simp [hrest, Partial.div] at h
      | some y =>
        obtain ⟨hvalues, hy⟩ := (toOption_combine_product R).1 hrest
        by_cases hzero : s.item = 0
        · simp [hrest, Partial.div, hzero] at h
        · refine ⟨⟨fun _ => hzero, hvalues⟩, ?_⟩
          rw [← hy]
          simpa [hrest, Partial.div, Signed.factor, hp, hzero, div_eq_inv_mul, eq_comm] using h

/-- A product is its first factor and the others, or the others over its first divisor. -/
theorem symbolValue?_product_cons (t : Signed (Tree ν)) (ts : List (Signed (Tree ν))) :
    (seq .product (t :: ts)).symbolValue? R ρ =
      if t.positive then
        Partial.mul (t.item.symbolValue? R ρ) ((seq .product ts).symbolValue? R ρ)
      else Partial.div ((seq .product ts).symbolValue? R ρ) (t.item.symbolValue? R ρ) := by
  simp only [symbolValue?, nameHoles, nameHolesTerms, exactValue?, evaluate, evaluateTerms]
  cases t.item.nameHoles.evaluate R.kernel (fun name => some (.ok (ρ name))) with
  | error fault =>
    by_cases hp : t.positive = true
    · simp [hp, Except.toOption, Partial.mul]
    · simp [hp, Except.toOption, Partial.div]
  | ok x =>
    cases evaluateTerms R.kernel (fun name => some (.ok (ρ name))) (nameHolesTerms ts) with
    | error fault =>
      by_cases hp : t.positive = true
      · simp [hp, Except.toOption, Partial.mul]
      · simp [hp, Except.toOption, Partial.div]
    | ok others => exact toOption_combine_product_cons R ⟨x, t.positive⟩ others

/-- The values of the terms with a sign. -/
def symbolValues (positive : Bool) (ts : List (Signed (Tree ν))) : List (Option ℚ) :=
  (ts.filter (·.positive == positive)).map (·.item.symbolValue? R ρ)

/-- **A product is the product of the factors over the product of the divisors.** -/
theorem symbolValue?_product (ts : List (Signed (Tree ν))) :
    (seq .product ts).symbolValue? R ρ =
      Partial.div (Partial.prod (symbolValues R ρ true ts))
        (Partial.prod (symbolValues R ρ false ts)) := by
  induction ts with
  | nil => exact (Partial.div_one _).symm
  | cons t ts ih =>
    rw [symbolValue?_product_cons, ih]
    by_cases hp : t.positive = true
    · simp [symbolValues, hp, Partial.prod, Partial.mul_div]
    · simp [symbolValues, hp, Partial.prod, Partial.div_mul]

end Tree

end Isolate
