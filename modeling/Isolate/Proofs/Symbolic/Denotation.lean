import Isolate.Symbolic.Collect
import Mathlib.Algebra.BigOperators.Group.List.Basic
import Mathlib.Algebra.Field.Basic
import Mathlib.Data.Rat.Cast.CharZero
import Mathlib.Tactic.Ring

/-!
# What regular forms denote

A form denotes an element of a field once its symbols have values there.  It is `Regular` if its
constants are exact, its exponents are whole numbers and nothing that is zero is inverted; the bases
of its powers are then symbols and sums, and the only item of a sum that is a constant is one.  Its
symbols are among some that are given.

* `Form.denote`, `Form.Regular` - the value of a form, and the forms that have one;
* `Form.Denotes` - a regular form with its value.
-/

namespace Isolate.Symbolic

variable {F : Type} [Field F]

/-- The value of an exact constant. -/
def Scalar.denote : Scalar → F
  | .exact q => q
  | _ => 0

namespace Form

mutual

/-- The value of a form, where symbols have values. What is not exact counts as zero. -/
def denote (env : String → F) : Form → F
  | scalar c => c.denote
  | named _ => 0
  | symbol name => env name
  | sum terms => denoteTerms env terms
  | product c factors => c.denote * denoteFactors env factors
  | apply _ _ => 0

/-- The value of a sum of terms. -/
def denoteTerms (env : String → F) : List (Weighted Form) → F
  | [] => 0
  | ⟨c, a⟩ :: rest => c.denote * denote env a + denoteTerms env rest

/-- The value of a product of factors. -/
def denoteFactors (env : String → F) : List (Powered Form) → F
  | [] => 1
  | ⟨b, e⟩ :: rest => denote env b ^ e.integer?.getD 0 * denoteFactors env rest

end

/-- Whether a form can stand as a base in a product: it is a symbol or a sum. -/
def IsAtom : Form → Prop
  | symbol _ => True
  | sum _ => True
  | _ => False

/-- Whether a form can stand as an item in a sum: a constant only if it is one. -/
def IsItem : Form → Prop
  | scalar c => c = .one
  | _ => True

/-- Forms of exact constants and symbols from `S` with whole exponents, in which nothing that is
zero is inverted. -/
inductive Regular (S : Set String) (env : String → F) : Form → Prop
  | scalar (q : ℚ) : Regular S env (scalar (.exact q))
  | symbol {name : String} (known : name ∈ S) : Regular S env (symbol name)
  | sum {terms : List (Weighted Form)} (weights : ∀ t ∈ terms, ∃ q, t.weight = .exact q)
      (kinds : ∀ t ∈ terms, t.item.IsItem) (items : ∀ t ∈ terms, Regular S env t.item) :
      Regular S env (sum terms)
  | product (q : ℚ) {factors : List (Powered Form)} (atoms : ∀ f ∈ factors, f.base.IsAtom)
      (exponents : ∀ f ∈ factors, ∃ n : ℤ, f.exponent = .scalar (.ofInt n) ∧
        (n < 0 → f.base.denote env ≠ 0))
      (bases : ∀ f ∈ factors, Regular S env f.base) : Regular S env (product (.exact q) factors)

/-- A regular form has a value. -/
structure Denotes (S : Set String) (env : String → F) (a : Form) (x : F) : Prop where
  regular : a.Regular S env
  value : a.denote env = x

end Form

/-! ## Terms -/

namespace Weighted

/-- The value of a term. -/
def denote (env : String → F) (t : Weighted Form) : F := t.weight.denote * t.item.denote env

/-- The weight is exact and the item regular. -/
structure Regular (S : Set String) (env : String → F) (t : Weighted Form) : Prop where
  weight : ∃ q, t.weight = .exact q
  kind : t.item.IsItem
  item : t.item.Regular S env

end Weighted

namespace Powered

/-- The value of a factor. -/
def denote (env : String → F) (f : Powered Form) : F :=
  f.base.denote env ^ f.exponent.integer?.getD 0

/-- The base is a symbol or a sum, and the exponent a whole number that does not invert zero. -/
structure Regular (S : Set String) (env : String → F) (f : Powered Form) : Prop where
  atom : f.base.IsAtom
  base : f.base.Regular S env
  exponent : ∃ n : ℤ, f.exponent = .scalar (.ofInt n) ∧ (n < 0 → f.base.denote env ≠ 0)

end Powered

namespace Form

variable {S : Set String} {env : String → F}

theorem denote_sum (terms : List (Weighted Form)) :
    (sum terms).denote env = (terms.map (Weighted.denote env)).sum := by
  rw [denote]
  induction terms with
  | nil => rfl
  | cons t terms ih => rw [denoteTerms, ih, List.map_cons, List.sum_cons, Weighted.denote]

theorem denote_product (c : Scalar) (factors : List (Powered Form)) :
    (product c factors).denote env = c.denote * (factors.map (Powered.denote env)).prod := by
  rw [denote]
  congr 1
  induction factors with
  | nil => rfl
  | cons f factors ih => rw [denoteFactors, ih, List.map_cons, List.prod_cons, Powered.denote]

theorem regular_sum {terms : List (Weighted Form)} :
    (sum terms).Regular S env ↔ ∀ t ∈ terms, t.Regular S env := by
  constructor
  · intro h t ht
    cases h with
    | sum weights kinds items => exact ⟨weights t ht, kinds t ht, items t ht⟩
  · exact fun h => .sum (fun t ht => (h t ht).weight) (fun t ht => (h t ht).kind)
      fun t ht => (h t ht).item

theorem regular_product {c : Scalar} {factors : List (Powered Form)} :
    (product c factors).Regular S env ↔ (∃ q, c = .exact q) ∧ ∀ f ∈ factors, f.Regular S env := by
  constructor
  · intro h
    cases h with
    | product q atoms exponents bases =>
      exact ⟨⟨q, rfl⟩, fun f hf => ⟨atoms f hf, bases f hf, exponents f hf⟩⟩
  · rintro ⟨⟨q, rfl⟩, h⟩
    exact .product q (fun f hf => (h f hf).atom) (fun f hf => (h f hf).exponent)
      fun f hf => (h f hf).base

theorem denote_scalar (q : ℚ) : (scalar (.exact q)).denote env = (q : F) := rfl

theorem denote_one : one.denote env = 1 := Rat.cast_one

theorem regular_one : one.Regular S env := .scalar 1

theorem denotes_scalar (q : ℚ) : Denotes S env (scalar (.exact q)) (q : F) := ⟨.scalar q, rfl⟩

theorem IsAtom.ne_one {a : Form} (h : a.IsAtom) : a ≠ one := by
  rintro rfl
  exact h

theorem IsAtom.isItem {a : Form} (h : a.IsAtom) : a.IsItem := by
  cases a with
  | scalar c => exact h.elim
  | _ => trivial

/-! ## Whole numbers -/

theorem integer?_ofInt (n : ℤ) : (scalar (.ofInt n)).integer? = some n := by
  simp [integer?, scalar?, Scalar.integer?, Scalar.ofInt]

/-- An exponent that is a sum, as long as no power of zero is negative. -/
theorem zpow_add_of {x : F} {m n : ℤ} (hm : m < 0 → x ≠ 0) (hn : n < 0 → x ≠ 0) :
    x ^ (m + n) = x ^ m * x ^ n := by
  by_cases hx : x = 0
  · have hm0 : 0 ≤ m := not_lt.1 fun h => hm h hx
    have hn0 : 0 ≤ n := not_lt.1 fun h => hn h hx
    lift m to ℕ using hm0
    lift n to ℕ using hn0
    rw [← Nat.cast_add, zpow_natCast, zpow_natCast, zpow_natCast, pow_add]
  · exact zpow_add₀ hx m n

end Form

namespace Powered

variable {S : Set String} {env : String → F}

theorem Regular.exists_eq {f : Powered Form} (h : f.Regular S env) :
    ∃ n : ℤ, f = ⟨f.base, .scalar (.ofInt n)⟩ ∧ (n < 0 → f.base.denote env ≠ 0) := by
  obtain ⟨b, e⟩ := f
  obtain ⟨n, rfl, hn⟩ := h.exponent
  exact ⟨n, rfl, hn⟩

theorem denote_mk (b : Form) (n : ℤ) :
    denote env ⟨b, .scalar (.ofInt n)⟩ = b.denote env ^ n := by
  rw [denote, Form.integer?_ofInt, Option.getD_some]

theorem denote_one (b : Form) : denote env ⟨b, .one⟩ = b.denote env :=
  (denote_mk b 1).trans (zpow_one _)

theorem regular_mk {b : Form} (hatom : b.IsAtom) (hb : b.Regular S env) {n : ℤ}
    (hn : n < 0 → b.denote env ≠ 0) : Regular S env ⟨b, .scalar (.ofInt n)⟩ :=
  ⟨hatom, hb, n, rfl, hn⟩

theorem regular_one {b : Form} (hatom : b.IsAtom) (hb : b.Regular S env) :
    Regular S env ⟨b, .one⟩ :=
  ⟨hatom, hb, 1, rfl, fun h => absurd h (by decide)⟩

end Powered

end Isolate.Symbolic
