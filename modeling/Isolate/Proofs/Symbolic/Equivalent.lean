import Isolate.Proofs.Symbolic.Laws
import Isolate.Proofs.Symbolic.Pointwise

/-!
# Equivalence of rational functions

Trees of whole numbers, symbols, sums, products and whole powers are rational functions.  An algebra
of symbols is handed such a tree node by node, so if the algebra preserves what is denoted, the
expression of the tree denotes what agrees with its exact value.  Hence two trees are found to be
equivalent exactly if they have the same value wherever nothing that is zero is inverted.

* `Tree.IsRational`, `Tree.Inverts`, `Tree.wholeValue?` - the trees, what they invert, their values;
* `Tree.hasExpression` - the expression of a tree denotes what agrees with its values;
* `Tree.isEquivalent_iff` - **equivalence is equality of rational functions**.
-/

namespace Isolate

open MvPolynomial Symbolic

namespace Tree

/-! ## Rational functions -/

/-- Trees of whole numbers, symbols, sums, products, and powers with whole numbers for exponents. -/
inductive IsRational : Tree Float → Prop
  | const {x : Float} {n : ℤ} (value : Binary64.integer? x = some n) : IsRational (const x)
  | var (name : String) (stored : Option Float) : IsRational (var (.text name) stored)
  | hole (name : String) : IsRational (hole (.text name))
  | seq (kind : SeqKind) {terms : List (Signed (Tree Float))}
      (items : ∀ t ∈ terms, IsRational t.item) : IsRational (seq kind terms)
  | pow {b : Tree Float} {x : Float} {n : ℤ} (base : IsRational b)
      (exponent : Binary64.integer? x = some n) : IsRational (pow b (.const x))

/-- What a tree divides by or raises to a negative power, somewhere inside. -/
inductive Inverts : Tree Float → Tree Float → Prop
  | divisor {terms : List (Signed (Tree Float))} {d : Tree Float} (mem : ⟨d, false⟩ ∈ terms) :
      Inverts (seq .product terms) d
  | base {b : Tree Float} {x : Float} {n : ℤ} (exponent : Binary64.integer? x = some n)
      (negative : n < 0) : Inverts (pow b (.const x)) b
  | term {kind : SeqKind} {terms : List (Signed (Tree Float))} {t : Signed (Tree Float)}
      {d : Tree Float} (mem : t ∈ terms) (inner : Inverts t.item d) : Inverts (seq kind terms) d
  | inBase {b e d : Tree Float} (inner : Inverts b d) : Inverts (pow b e) d

/-- The exact value of a tree of whole numbers and symbols, whatever is stored on the variables. -/
def wholeValue? (ρ : String → ℚ) (t : Tree Float) : Option ℚ := t.symbolValue? Reading.whole ρ

section

variable (ρ : String → ℚ) {t : Tree Float} {ts : List (Signed (Tree Float))}

theorem wholeValue?_const {x : Float} {n : ℤ} (h : Binary64.integer? x = some n) :
    (const x).wholeValue? ρ = some (n : ℚ) := by
  have hnumber : Reading.whole.number x = n := by simp [Reading.whole, h]
  rw [wholeValue?, symbolValue?_const, hnumber]

theorem wholeValue?_pow {x : Float} {n : ℤ} (h : Binary64.integer? x = some n) (b : Tree Float) :
    (pow b (const x)).wholeValue? ρ =
      (b.wholeValue? ρ).bind fun v => Partial.wholePower v n := by
  have hx := wholeValue?_const ρ h
  rw [wholeValue?] at hx
  rw [wholeValue?, symbolValue?_pow, hx]
  rfl

theorem wholeValue?_sum_cons (t : Signed (Tree Float)) (ts : List (Signed (Tree Float))) :
    (seq .sum (t :: ts)).wholeValue? ρ =
      Partial.add (Partial.signed t.positive (t.item.wholeValue? ρ))
        ((seq .sum ts).wholeValue? ρ) :=
  symbolValue?_sum_cons Reading.whole ρ t ts

theorem wholeValue?_product_cons (t : Signed (Tree Float)) (ts : List (Signed (Tree Float))) :
    (seq .product (t :: ts)).wholeValue? ρ =
      if t.positive then Partial.mul (t.item.wholeValue? ρ) ((seq .product ts).wholeValue? ρ)
      else Partial.div ((seq .product ts).wholeValue? ρ) (t.item.wholeValue? ρ) :=
  symbolValue?_product_cons Reading.whole ρ t ts

/-! ## Where there are values -/

theorem exists_sum_value (h : ∀ t ∈ ts, ∃ v, t.item.wholeValue? ρ = some v) :
    ∃ v, (seq .sum ts).wholeValue? ρ = some v := by
  induction ts with
  | nil => exact ⟨0, symbolValue?_sum_nil _ ρ⟩
  | cons t ts ih =>
    obtain ⟨⟨v, hv⟩, hothers⟩ := List.forall_mem_cons.1 h
    obtain ⟨w, hw⟩ := ih hothers
    rw [wholeValue?_sum_cons, hv, hw]
    exact ⟨_, rfl⟩

theorem exists_product_value (h : ∀ t ∈ ts, ∃ v, t.item.wholeValue? ρ = some v)
    (hdivisors : ∀ t ∈ ts, t.positive = false → t.item.wholeValue? ρ ≠ some 0) :
    ∃ v, (seq .product ts).wholeValue? ρ = some v := by
  induction ts with
  | nil => exact ⟨1, symbolValue?_product_nil _ ρ⟩
  | cons t ts ih =>
    obtain ⟨⟨v, hv⟩, hothers⟩ := List.forall_mem_cons.1 h
    obtain ⟨hdivisor, hdivisors⟩ := List.forall_mem_cons.1 hdivisors
    obtain ⟨w, hw⟩ := ih hothers hdivisors
    rw [wholeValue?_product_cons, hv, hw]
    cases hp : t.positive with
    | true => exact ⟨_, rfl⟩
    | false =>
      have hne : v ≠ 0 := fun hzero => hdivisor hp (hzero ▸ hv)
      exact ⟨w / v, by simp [Partial.div, hne]⟩

/-- **A tree has a value where nothing that it inverts is zero.** -/
theorem exists_value (ht : t.IsRational) (h : ∀ d, t.Inverts d → d.wholeValue? ρ ≠ some 0) :
    ∃ v, t.wholeValue? ρ = some v := by
  induction ht with
  | const hx => exact ⟨_, wholeValue?_const ρ hx⟩
  | var name stored => exact ⟨_, symbolValue?_var _ ρ name stored⟩
  | hole name => exact ⟨_, symbolValue?_hole _ ρ name⟩
  | @pow b x n _ hx ih =>
    obtain ⟨v, hv⟩ := ih fun d hd => h d (.inBase hd)
    have hne : ¬(v = 0 ∧ n < 0) := by
      rintro ⟨rfl, hn⟩
      exact h b (.base hx hn) hv
    rw [wholeValue?_pow ρ hx, hv, Option.bind_some, Partial.wholePower_intCast, if_neg hne]
    exact ⟨_, rfl⟩
  | @seq kind ts _ ih =>
    have hterms : ∀ t ∈ ts, ∃ v, t.item.wholeValue? ρ = some v := fun t ht =>
      ih t ht fun d hd => h d (.term ht hd)
    cases kind with
    | sum => exact exists_sum_value ρ hterms
    | product =>
      refine exists_product_value ρ hterms ?_
      rintro ⟨d, _⟩ ht rfl
      exact h d (.divisor ht)

end

/-! ## Symbols -/

/-- The name of a leaf that is a symbol: a variable or a placeholder whose name is a text. -/
def symbol? : Tree Float → Option String
  | var name _ => name.text?
  | hole name => name.text?
  | _ => none

/-- The names of the symbols of a tree, from left to right. -/
def symbols (t : Tree Float) : List String := t.preorder.filterMap symbol?

theorem filterMap_preorder_seq {β : Type} {f : Tree Float → Option β} {kind : SeqKind}
    {terms : List (Signed (Tree Float))} (hf : f (seq kind terms) = none) :
    (seq kind terms).preorder.filterMap f
      = terms.flatMap fun t => t.item.preorder.filterMap f := by
  rw [preorder_eq, List.filterMap_cons_none hf, List.filterMap_flatMap, children,
    List.flatMap_map]

theorem filterMap_preorder_pow {β : Type} {f : Tree Float → Option β} {base exponent : Tree Float}
    (hf : f (pow base exponent) = none) :
    (pow base exponent).preorder.filterMap f
      = base.preorder.filterMap f ++ exponent.preorder.filterMap f := by
  rw [preorder, List.filterMap_cons_none hf, List.filterMap_append]

theorem symbols_seq (kind : SeqKind) (terms : List (Signed (Tree Float))) :
    (seq kind terms).symbols = terms.flatMap (·.item.symbols) :=
  filterMap_preorder_seq rfl

theorem symbols_pow (base exponent : Tree Float) :
    (pow base exponent).symbols = base.symbols ++ exponent.symbols :=
  filterMap_preorder_pow rfl

/-! ## Expressions -/

section

variable {ε α F : Type} [Field F] {C : Calculus ε α} {values : String → Option F}
  {denotes : ε → F → Prop} {env : String → F} {N : ((String → ℚ) → Option ℚ) → Prop}
  {A : ((String → ℚ) → Option ℚ) → F → Prop} {t : Tree Float} {ts : List (Signed (Tree Float))}

/-- A tree has an expression, and this denotes what agrees with the values of the tree. -/
def HasExpression (C : Calculus ε α) (denotes : ε → F → Prop)
    (A : ((String → ℚ) → Option ℚ) → F → Prop) (t : Tree Float) : Prop :=
  ∃ e x, t.symbolic C = .ok e ∧ denotes e x ∧ A (fun ρ => t.wholeValue? ρ) x

theorem number_of_integer? {x : Float} {n : ℤ} (h : Binary64.integer? x = some n) :
    C.number x = C.integer n := by
  rw [Calculus.number, h]

theorem hasExpression_const (hC : C.Preserves values denotes) (hA : Agreement env N A) {x : Float}
    {n : ℤ} (h : Binary64.integer? x = some n) : HasExpression C denotes A (const x) := by
  have hvalue := hA.const n
  rw [Rat.cast_intCast] at hvalue
  refine ⟨C.integer n, n, ?_, hC.integer n, ?_⟩
  · rw [symbolic, number_of_integer? h]
  · simpa only [wholeValue?_const _ h] using hvalue

theorem exists_sum (hC : C.Preserves values denotes) (hA : Agreement env N A)
    (hts : ∀ t ∈ ts, HasExpression C denotes A t.item) :
    ∃ es xs, symbolicTerms C .sum ts = .ok es ∧ List.Forall₂ denotes es xs ∧
      A (fun ρ => (seq .sum ts).wholeValue? ρ) xs.sum := by
  induction ts with
  | nil =>
    have hzero := hA.const 0
    rw [Rat.cast_zero] at hzero
    exact ⟨[], [], rfl, .nil, hzero⟩
  | cons t ts ih =>
    obtain ⟨⟨e, x, he, hdenotes, hagrees⟩, hothers⟩ := List.forall_mem_cons.1 hts
    obtain ⟨es, xs, hes, hall, hsum⟩ := ih hothers
    obtain ⟨t, positive⟩ := t
    have hsigned : ∃ y, denotes (C.signed .sum positive e) y ∧
        A (fun ρ => Partial.signed positive (t.wholeValue? ρ)) y := by
      cases positive with
      | true =>
        simp only [Partial.signed_true]
        exact ⟨x, hdenotes, hagrees⟩
      | false => exact ⟨-x, hC.neg hdenotes, hA.neg hagrees⟩
    obtain ⟨y, hy, hvalue⟩ := hsigned
    refine ⟨C.signed .sum positive e :: es, y :: xs, ?_, .cons hy hall, ?_⟩
    · rw [symbolicTerms, he, ok_bind, hes, ok_bind]
    · simp only [wholeValue?_sum_cons, List.sum_cons]
      exact hA.add hvalue hsum

theorem exists_product (hC : C.Preserves values denotes) (hA : Agreement env N A)
    (hts : ∀ t ∈ ts, HasExpression C denotes A t.item)
    (hdivisors : ∀ t ∈ ts, t.positive = false → N fun ρ => t.item.wholeValue? ρ) :
    ∃ es xs, symbolicTerms C .product ts = .ok es ∧ List.Forall₂ denotes es xs ∧
      A (fun ρ => (seq .product ts).wholeValue? ρ) xs.prod := by
  induction ts with
  | nil =>
    have hone := hA.const 1
    rw [Rat.cast_one] at hone
    exact ⟨[], [], rfl, .nil, hone⟩
  | cons t ts ih =>
    obtain ⟨⟨e, x, he, hdenotes, hagrees⟩, hothers⟩ := List.forall_mem_cons.1 hts
    obtain ⟨hdivisor, hdivisors⟩ := List.forall_mem_cons.1 hdivisors
    obtain ⟨es, xs, hes, hall, hproduct⟩ := ih hothers hdivisors
    obtain ⟨t, positive⟩ := t
    have hterms : symbolicTerms C .product (⟨t, positive⟩ :: ts) =
        .ok (C.signed .product positive e :: es) := by
      rw [symbolicTerms, he, ok_bind, hes, ok_bind]
    simp only [wholeValue?_product_cons]
    cases positive with
    | true =>
      refine ⟨_, x :: xs, hterms, .cons hdenotes hall, ?_⟩
      rw [List.prod_cons]
      exact hA.mul hagrees hproduct
    | false =>
      have hvalue := hdivisor rfl
      have hinverse := hC.power hdenotes (-1) fun _ => hA.ne_zero hagrees hvalue
      refine ⟨_, x ^ (-1 : ℤ) :: xs, hterms, .cons hinverse hall, ?_⟩
      rw [List.prod_cons, zpow_neg_one, mul_comm]
      exact hA.div hproduct hagrees hvalue

/-- **The expression of a tree denotes what agrees with the values of the tree**, if its symbols
have values and everything that the tree inverts can be inverted. -/
theorem hasExpression (hC : C.Preserves values denotes) (hA : Agreement env N A)
    (ht : t.IsRational) (hsymbols : ∀ name ∈ t.symbols, values name = some (env name))
    (hinverts : ∀ d, t.Inverts d → N fun ρ => d.wholeValue? ρ) :
    HasExpression C denotes A t := by
  induction ht with
  | const hx => exact hasExpression_const hC hA hx
  | var name stored =>
    have hname := hsymbols name (List.mem_singleton_self _)
    exact ⟨C.symbol name, env name, rfl, hC.symbol hname, hA.symbol name⟩
  | hole name =>
    have hname := hsymbols name (List.mem_singleton_self _)
    exact ⟨C.symbol name, env name, rfl, hC.symbol hname, hA.symbol name⟩
  | @pow b x n _ hx ih =>
    rw [symbols_pow] at hsymbols
    obtain ⟨e, y, he, hdenotes, hagrees⟩ :=
      ih (fun name hname => hsymbols name (List.mem_append_left _ hname))
        fun d hd => hinverts d (.inBase hd)
    have hvalue : n < 0 → N fun ρ => b.wholeValue? ρ := fun hn => hinverts b (.base hx hn)
    refine ⟨C.power e (C.integer n), y ^ n, ?_,
      hC.power hdenotes n fun hn => hA.ne_zero hagrees (hvalue hn), ?_⟩
    · rw [symbolic, he, ok_bind, symbolic, ok_bind, number_of_integer? hx]
    · simp only [wholeValue?_pow _ hx]
      exact hA.power hagrees n hvalue
  | @seq kind ts _ ih =>
    rw [symbols_seq] at hsymbols
    have hts : ∀ t ∈ ts, HasExpression C denotes A t.item := fun t ht =>
      ih t ht (fun name hname => hsymbols name (List.mem_flatMap_of_mem ht hname))
        fun d hd => hinverts d (.term ht hd)
    cases kind with
    | sum =>
      obtain ⟨es, xs, hes, hall, hsum⟩ := exists_sum hC hA hts
      refine ⟨C.sum es, xs.sum, ?_, hC.sum hall, hsum⟩
      rw [symbolic, hes]
      rfl
    | product =>
      obtain ⟨es, xs, hes, hall, hproduct⟩ := exists_product hC hA hts (by
        rintro ⟨d, _⟩ ht rfl
        exact hinverts d (.divisor ht))
      refine ⟨C.product es, xs.prod, ?_, hC.product hall, hproduct⟩
      rw [symbolic, hes]
      rfl

end

/-! ## Where nothing inverted is zero -/

variable {ε α : Type} {C : Calculus ε α} {denotes : ε → Functions → Prop} {t : Tree Float}

/-- The rational functions of the symbols agree with their values. -/
theorem agreement_functions :
    Agreement Functions.symbol (fun f => ∃ ρ v, f ρ = some v ∧ v ≠ 0)
      (Agrees Functions.ofPolynomial) :=
  Agrees.agreement Functions.ofPolynomial_injective fun _ => rfl

/-- A tree has an expression, if nothing that it inverts is zero everywhere. -/
theorem hasExpression_of_decides (hC : C.Decides denotes) (ht : t.IsRational)
    (hinverts : ∀ d, t.Inverts d → ∃ ρ v, d.wholeValue? ρ = some v ∧ v ≠ 0) :
    HasExpression C denotes (Agrees Functions.ofPolynomial) t :=
  hasExpression hC.preserves agreement_functions ht (fun _ _ => rfl) hinverts

/-- Almost everywhere nothing that a tree inverts is zero. -/
theorem usually_defined (hC : C.Decides denotes) (ht : t.IsRational)
    (hinverts : ∀ d, t.Inverts d → ∃ ρ v, d.wholeValue? ρ = some v ∧ v ≠ 0) :
    Usually fun ρ => ∀ d, t.Inverts d → d.wholeValue? ρ ≠ some 0 := by
  induction ht with
  | const hx => exact .of_forall fun ρ d hd => by cases hd
  | var name stored => exact .of_forall fun ρ d hd => by cases hd
  | hole name => exact .of_forall fun ρ d hd => by cases hd
  | @pow b x n hb hx ih =>
    have hinner : ∀ d, b.Inverts d → ∃ ρ v, d.wholeValue? ρ = some v ∧ v ≠ 0 := fun d hd =>
      hinverts d (.inBase hd)
    have hbase : Usually fun ρ => n < 0 → b.wholeValue? ρ ≠ some 0 := by
      by_cases hn : n < 0
      · obtain ⟨_, _, -, -, hagrees⟩ := hasExpression_of_decides hC hb hinner
        exact (hagrees.usually_ne_zero (hinverts b (.base hx hn))).mono fun ρ hρ _ => hρ
      · exact .of_forall fun ρ h => absurd h hn
    refine (hbase.and (ih hinner)).mono fun ρ hρ d hd => ?_
    cases hd with
    | base hx' hn =>
      obtain rfl := Option.some.inj (hx'.symm.trans hx)
      exact hρ.1 hn
    | inBase hd => exact hρ.2 d hd
  | @seq kind ts hts ih =>
    have hinner : ∀ t ∈ ts, ∀ d, t.item.Inverts d → ∃ ρ v, d.wholeValue? ρ = some v ∧ v ≠ 0 :=
      fun t ht d hd => hinverts d (.term ht hd)
    have hterms : ∀ t ∈ ts, Usually fun ρ =>
        (kind = .product → t.positive = false → t.item.wholeValue? ρ ≠ some 0) ∧
          ∀ d, t.item.Inverts d → d.wholeValue? ρ ≠ some 0 := by
      rintro ⟨t, positive⟩ ht
      refine Usually.and ?_ (ih _ ht (hinner _ ht))
      by_cases hdivisor : kind = .product ∧ positive = false
      · obtain ⟨rfl, rfl⟩ := hdivisor
        obtain ⟨_, _, -, -, hagrees⟩ := hasExpression_of_decides hC (hts _ ht) (hinner _ ht)
        exact (hagrees.usually_ne_zero (hinverts t (.divisor ht))).mono fun ρ hρ _ _ => hρ
      · exact .of_forall fun ρ hk hp => absurd ⟨hk, hp⟩ hdivisor
    refine (Usually.forall_mem hterms).mono fun ρ hρ d hd => ?_
    cases hd with
    | divisor ht => exact (hρ _ ht).1 rfl rfl
    | term ht hd => exact (hρ _ ht).2 d hd

/-! ## Operands -/

/-- A rational function, or a plain whole number in place of a tree. -/
inductive IsOperand : Tree Float → Prop
  | tree {t : Tree Float} (rational : t.IsRational) : IsOperand t
  | number (n : ℤ) : IsOperand (foreign (.int n))

/-- The exact value of a tree, or of a plain whole number in place of one. -/
def operandValue? (ρ : String → ℚ) : Tree Float → Option ℚ
  | foreign (.int n) => some n
  | t => t.wholeValue? ρ

theorem IsRational.operandValue?_eq (ht : t.IsRational) (ρ : String → ℚ) :
    t.operandValue? ρ = t.wholeValue? ρ := by
  cases ht <;> rfl

theorem IsRational.operand_eq (ht : t.IsRational) : t.operand C = t.symbolic C := by
  cases ht <;> rfl

theorem exists_operand (hC : C.Decides denotes) (ht : t.IsOperand)
    (hinverts : ∀ d, t.Inverts d → ∃ ρ v, d.wholeValue? ρ = some v ∧ v ≠ 0) :
    ∃ e x, t.operand C = .ok e ∧ denotes e x ∧
      Agrees Functions.ofPolynomial (fun ρ => t.operandValue? ρ) x := by
  cases ht with
  | number n =>
    obtain ⟨e, he, hdenotes⟩ := hC.preserves.read n
    have hvalue := Agrees.const (ψ := Functions.ofPolynomial) n
    rw [Rat.cast_intCast] at hvalue
    exact ⟨e, n, he, hdenotes, hvalue⟩
  | tree ht =>
    simp only [ht.operandValue?_eq, ht.operand_eq]
    exact hasExpression_of_decides hC ht hinverts

theorem usually_operand_defined (hC : C.Decides denotes) (ht : t.IsOperand)
    (hinverts : ∀ d, t.Inverts d → ∃ ρ v, d.wholeValue? ρ = some v ∧ v ≠ 0) :
    Usually fun ρ => ∀ d, t.Inverts d → d.wholeValue? ρ ≠ some 0 := by
  cases ht with
  | number n => exact .of_forall fun ρ d hd => by cases hd
  | tree ht => exact usually_defined hC ht hinverts

theorem exists_operand_value (ht : t.IsOperand) {ρ : String → ℚ}
    (h : ∀ d, t.Inverts d → d.wholeValue? ρ ≠ some 0) : ∃ v, t.operandValue? ρ = some v := by
  cases ht with
  | number n => exact ⟨n, rfl⟩
  | tree ht =>
    rw [ht.operandValue?_eq]
    exact exists_value ρ ht h

/-! ## Equivalence -/

/-- **Equivalence is equality of rational functions**, in every algebra of symbols that preserves
what is denoted and decides what is zero: if nothing that two operands invert is zero everywhere,
they are found to be equivalent exactly if they have the same value wherever nothing that they
invert is zero. -/
theorem isEquivalent_iff (hC : C.Decides denotes) {a b : Tree Float} (ha : a.IsOperand)
    (hb : b.IsOperand)
    (hinverts : ∀ d, a.Inverts d ∨ b.Inverts d → ∃ ρ v, d.wholeValue? ρ = some v ∧ v ≠ 0) :
    ∃ answer, a.isEquivalent C b = .ok answer ∧
      (answer = true ↔
        ∀ ρ, (∀ d, a.Inverts d ∨ b.Inverts d → d.wholeValue? ρ ≠ some 0) →
          ∃ v, a.operandValue? ρ = some v ∧ b.operandValue? ρ = some v) := by
  have hinvertsa := fun d hd => hinverts d (.inl hd)
  have hinvertsb := fun d hd => hinverts d (.inr hd)
  obtain ⟨e, x, he, hdenotese, hagreesx⟩ := exists_operand hC ha hinvertsa
  obtain ⟨f, y, hf, hdenotesf, hagreesy⟩ := exists_operand hC hb hinvertsb
  have hdefined := (usually_operand_defined hC ha hinvertsa).and
    (usually_operand_defined hC hb hinvertsb)
  have hvalues : ∀ ρ, ((∀ d, a.Inverts d → d.wholeValue? ρ ≠ some 0) ∧
      ∀ d, b.Inverts d → d.wholeValue? ρ ≠ some 0) →
      (a.operandValue? ρ).isSome ∧ (b.operandValue? ρ).isSome := fun ρ hρ =>
    ⟨Option.isSome_iff_exists.2 (exists_operand_value ha hρ.1),
      Option.isSome_iff_exists.2 (exists_operand_value hb hρ.2)⟩
  refine ⟨C.isZero (C.simplify (C.sub e f)), ?_, ?_⟩
  · rw [isEquivalent, he, ok_bind, hf, ok_bind]
  · rw [hC.isZero (hC.preserves.sub hdenotese hdenotesf), sub_eq_zero,
      hagreesx.eq_iff Functions.ofPolynomial_injective hagreesy hdefined hvalues]
    constructor
    · intro h ρ hρ
      have hρ' := And.intro (fun d hd => hρ d (.inl hd)) fun d hd => hρ d (.inr hd)
      obtain ⟨v, hv⟩ := Option.isSome_iff_exists.1 (hvalues ρ hρ').1
      exact ⟨v, hv, (h ρ hρ') ▸ hv⟩
    · intro h ρ hρ
      obtain ⟨v, hv, hv'⟩ := h ρ fun d hd => hd.elim (hρ.1 d) (hρ.2 d)
      rw [hv, hv']

/-- The tree `a * a ^ (-1)`, where the second name is a placeholder. -/
def inverseTimes : Tree Float :=
  seq .product [⟨.var (.text "a") (some 5), true⟩,
    ⟨.pow (.hole (.text "a")) (.const (-1)), true⟩]

theorem isRational_inverseTimes : inverseTimes.IsRational := by
  refine .seq _ (List.forall_mem_cons.2 ⟨.var _ _, List.forall_mem_singleton.2 ?_⟩)
  exact .pow (.hole _) (n := -1) (by decide +kernel)

theorem inverts_inverseTimes {d : Tree Float} (h : inverseTimes.Inverts d) :
    d = .hole (.text "a") := by
  cases h with
  | divisor mem => simp at mem
  | term mem inner =>
    rcases List.mem_cons.1 mem with rfl | mem
    · cases inner
    · obtain rfl := List.mem_singleton.1 mem
      cases inner with
      | base => rfl
      | inBase inner => cases inner

/-- A name times its inverse is one, in the algebra of forms. -/
theorem isEquivalent_inverseTimes :
    (Form.calculus .arrays).Decides (Form.DenotesAt fun name => some (Functions.symbol name)) ∧
      inverseTimes.IsOperand ∧ (foreign (.int 1)).IsOperand ∧
      (∀ d, inverseTimes.Inverts d ∨ (foreign (.int 1)).Inverts d →
        ∃ ρ v, d.wholeValue? ρ = some v ∧ v ≠ 0) ∧
      inverseTimes.isEquivalent (Form.calculus .arrays) (foreign (.int 1)) = .ok true := by
  have hinverts : ∀ d, inverseTimes.Inverts d ∨ (foreign (.int 1)).Inverts d →
      d = .hole (.text "a") := by
    rintro d (h | h)
    · exact inverts_inverseTimes h
    · cases h
  have hvalues : ∀ d, inverseTimes.Inverts d ∨ (foreign (.int 1)).Inverts d →
      ∃ ρ v, d.wholeValue? ρ = some v ∧ v ≠ 0 := by
    intro d hd
    obtain rfl := hinverts d hd
    exact ⟨fun _ => 1, 1, symbolValue?_hole _ _ _, one_ne_zero⟩
  have hdecides := Form.decides .arrays
  refine ⟨hdecides, .tree isRational_inverseTimes, .number 1, hvalues, ?_⟩
  obtain ⟨answer, hanswer, hiff⟩ :=
    isEquivalent_iff hdecides (.tree isRational_inverseTimes) (.number 1) hvalues
  rw [hanswer, hiff.2]
  intro ρ hρ
  have hne : ρ "a" ≠ 0 := fun hzero =>
    hρ _ (.inl (.term (List.mem_cons_of_mem _ List.mem_cons_self)
      (.base (n := -1) (by decide +kernel) (by decide)))) (by
        rw [wholeValue?, symbolValue?_hole, hzero])
  have hpower : (pow (hole (.text "a")) (const (-1))).wholeValue? ρ = some (ρ "a")⁻¹ := by
    rw [wholeValue?_pow ρ (n := -1) (by decide +kernel), wholeValue?, symbolValue?_hole,
      Option.bind_some, Partial.wholePower_intCast, if_neg (fun h => hne h.1), zpow_neg_one]
  refine ⟨1, ?_, rfl⟩
  have hvalue : inverseTimes.wholeValue? ρ = some (ρ "a" * ((ρ "a")⁻¹ * 1)) := by
    rw [inverseTimes, wholeValue?_product_cons, if_pos rfl, wholeValue?_product_cons, if_pos rfl,
      hpower, wholeValue?, symbolValue?_var, wholeValue?, symbolValue?_product_nil]
    rfl
  rw [isRational_inverseTimes.operandValue?_eq, hvalue, mul_one, mul_inv_cancel₀ hne]

end Tree

end Isolate
