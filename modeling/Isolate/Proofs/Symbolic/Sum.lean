import Isolate.Proofs.Symbolic.Denotation
import Isolate.Proofs.Symbolic.Fold
import Mathlib.Algebra.BigOperators.Ring.List
import Mathlib.Data.List.SplitBy

/-!
# Sums of regular forms

Constant multiples and sums of regular forms are regular, and denote the multiples and the sums of
what the forms denote.  Neither collecting the terms nor their order matters.

* `Form.denotes_scale`, `Form.denotes_neg` - multiples and opposites;
* `Form.denotes_ofSum` - sums.
-/

namespace Isolate.Symbolic

variable {F : Type} [Field F] {S : Set String} {env : String → F}

namespace Form

/-! ## Constant factors -/

theorem denotes_bare {factors : List (Powered Form)} (h : ∀ f ∈ factors, f.Regular S env) :
    Denotes S env (bare factors) (factors.map (Powered.denote env)).prod := by
  have hproduct : Denotes S env (product .one factors) (factors.map (Powered.denote env)).prod := by
    refine ⟨regular_product.2 ⟨⟨1, rfl⟩, h⟩, ?_⟩
    have hone : Scalar.one.denote = (1 : F) := Rat.cast_one
    rw [denote_product, hone, one_mul]
  unfold bare
  split
  next b e =>
    obtain ⟨hb, -⟩ := List.forall_mem_cons.1 h
    split
    next he =>
      subst he
      refine ⟨hb.base, ?_⟩
      rw [List.map_singleton, List.prod_singleton, Powered.denote_one]
    next => exact hproduct
  next => exact hproduct

theorem isItem_bare {factors : List (Powered Form)} (h : ∀ f ∈ factors, f.Regular S env) :
    (bare factors).IsItem := by
  unfold bare
  split
  next b e =>
    split
    next => exact (h _ List.mem_cons_self).atom.isItem
    next => trivial
  next => trivial

theorem denotes_withCoefficient (q : ℚ) {factors : List (Powered Form)}
    (h : ∀ f ∈ factors, f.Regular S env) :
    Denotes S env (withCoefficient (.exact q) factors)
      (q * (factors.map (Powered.denote env)).prod) := by
  rw [withCoefficient, if_neg (by simp)]
  split
  next hzero =>
    obtain rfl : q = 0 := by simpa [Scalar.isZero] using hzero
    refine ⟨.scalar 0, ?_⟩
    rw [denote_scalar, Rat.cast_zero, zero_mul]
  next =>
    split
    next hone =>
      obtain rfl : q = 1 := by simpa [Scalar.one] using hone
      rw [Rat.cast_one, one_mul]
      exact denotes_bare h
    next => exact ⟨regular_product.2 ⟨⟨q, rfl⟩, h⟩, denote_product _ _⟩

theorem turned_perm (terms : List (Weighted Form)) : (turned terms).Perm terms := by
  have hgroups := List.Perm.flatMap_left
    (terms.splitBy fun t u => sameFactors t.item.symbolFactors u.item.symbolFactors)
    (fun group _ => List.reverse_perm group)
  rw [turned]
  refine hgroups.trans ?_
  rw [List.flatMap_id', List.flatten_splitBy]

variable [CharZero F]

/-- A constant times the terms of a sum. -/
theorem sum_map_scale (q : ℚ) {terms : List (Weighted Form)} (h : ∀ t ∈ terms, t.Regular S env) :
    (∀ t ∈ terms.map fun t => Weighted.mk ((Scalar.exact q).mul t.weight) t.item, t.Regular S env) ∧
      ((terms.map fun t => Weighted.mk ((Scalar.exact q).mul t.weight) t.item).map
        (Weighted.denote env)).sum = q * (terms.map (Weighted.denote env)).sum := by
  induction terms with
  | nil => exact ⟨List.forall_mem_nil _, (mul_zero _).symm⟩
  | cons t terms ih =>
    obtain ⟨ht, hterms⟩ := List.forall_mem_cons.1 h
    obtain ⟨hregular, hvalue⟩ := ih hterms
    obtain ⟨w, hw⟩ := ht.weight
    have hexact : (Scalar.exact q).mul t.weight = .exact (q * w) := by
      rw [hw]
      rfl
    have hweight : ((Scalar.exact q).mul t.weight).denote = (q : F) * t.weight.denote := by
      rw [hexact, hw]
      exact Rat.cast_mul q w
    refine ⟨List.forall_mem_cons.2 ⟨⟨⟨q * w, hexact⟩, ht.kind, ht.item⟩, hregular⟩, ?_⟩
    rw [List.map_cons, List.map_cons, List.sum_cons, hvalue, List.map_cons, List.sum_cons, mul_add,
      Weighted.denote, Weighted.denote, hweight, mul_assoc]

/-- **A constant times a form.** -/
theorem denotes_scale (q : ℚ) {a : Form} (ha : a.Regular S env) :
    Denotes S env (scale (.exact q) a) (q * a.denote env) := by
  unfold scale
  split
  next hone =>
    obtain rfl : q = 1 := by simpa [Scalar.one] using hone
    exact ⟨ha, by rw [Rat.cast_one, one_mul]⟩
  next =>
    cases ha with
    | scalar r => exact ⟨.scalar (q * r), Rat.cast_mul q r⟩
    | @symbol name known =>
      have hfactors : ∀ f ∈ [⟨symbol name, one⟩], Powered.Regular S env f :=
        List.forall_mem_singleton.2 (Powered.regular_one trivial (.symbol known))
      have hsymbol := denotes_withCoefficient q hfactors
      rwa [List.map_singleton, List.prod_singleton, Powered.denote_one] at hsymbol
    | product r atoms exponents bases =>
      have hfactors := (regular_product.1 (Regular.product r atoms exponents bases)).2
      have hproduct := denotes_withCoefficient (q * r) hfactors
      refine ⟨hproduct.regular, hproduct.value.trans ?_⟩
      rw [denote_product, Rat.cast_mul, mul_assoc]
      rfl
    | @sum terms weights kinds items =>
      have hterms := regular_sum.1 (Regular.sum weights kinds items)
      obtain ⟨hregular, hvalue⟩ := sum_map_scale q hterms
      dsimp only
      split
      next hzero =>
        obtain rfl : q = 0 := by simpa [Scalar.isZero] using hzero
        refine ⟨.scalar 0, ?_⟩
        rw [denote_scalar, Rat.cast_zero, zero_mul]
      next =>
        have hfinite : (Scalar.exact q).rational?.isSome = true := rfl
        rw [if_pos hfinite]
        split
        next =>
          have hperm := turned_perm
            (terms.map fun t => Weighted.mk ((Scalar.exact q).mul t.weight) t.item)
          refine ⟨regular_sum.2 fun t ht => hregular t (hperm.subset ht), ?_⟩
          rw [denote_sum, (hperm.map _).sum_eq, hvalue, denote_sum]
        next => exact ⟨regular_sum.2 hregular, by rw [denote_sum, hvalue, denote_sum]⟩

/-- **The opposite of a form.** -/
theorem denotes_neg {a : Form} (ha : a.Regular S env) : Denotes S env a.neg (-a.denote env) := by
  have hscale := denotes_scale (-1) ha
  rwa [Rat.cast_neg, Rat.cast_one, neg_one_mul] at hscale

end Form

/-! ## Collected terms -/

namespace Weighted

/-- The term that a form is by itself. -/
theorem ofForm_spec {a : Form} (ha : a.Regular S env) :
    (ofForm a).Regular S env ∧ (ofForm a).denote env = a.denote env := by
  have hone : (Scalar.one.denote : F) = 1 := Rat.cast_one
  cases ha with
  | scalar q =>
    refine ⟨⟨⟨q, rfl⟩, rfl, Form.regular_one⟩, ?_⟩
    exact (congrArg ((q : F) * ·) Form.denote_one).trans (mul_one _)
  | @symbol name known =>
    refine ⟨⟨⟨1, rfl⟩, trivial, .symbol known⟩, ?_⟩
    exact (congrArg (· * env name) hone).trans (one_mul _)
  | sum weights kinds items =>
    refine ⟨⟨⟨1, rfl⟩, trivial, .sum weights kinds items⟩, ?_⟩
    exact (congrArg (· * _) hone).trans (one_mul _)
  | product q atoms exponents bases =>
    have hfactors := (Form.regular_product.1 (Form.Regular.product q atoms exponents bases)).2
    have hbare := Form.denotes_bare hfactors
    refine ⟨⟨⟨q, rfl⟩, Form.isItem_bare hfactors, hbare.regular⟩, ?_⟩
    rw [Form.denote_product]
    exact congrArg ((q : F) * ·) hbare.value

variable [CharZero F]

theorem join_spec {t : Weighted Form} (ht : t.Regular S env) {us : List (Weighted Form)}
    (hus : ∀ u ∈ us, u.Regular S env) :
    (∀ u ∈ t.join us, u.Regular S env) ∧
      ((t.join us).map (denote env)).sum = t.denote env + (us.map (denote env)).sum := by
  induction us with
  | nil => exact ⟨List.forall_mem_singleton.2 ht, rfl⟩
  | cons u us ih =>
    obtain ⟨hu, hothers⟩ := List.forall_mem_cons.1 hus
    rw [join]
    split
    next hsame =>
      obtain ⟨v, hv⟩ := hu.weight
      obtain ⟨w, hw⟩ := ht.weight
      have hweight : (u.weight.add t.weight).denote = (u.weight.denote + t.weight.denote : F) := by
        rw [hv, hw]
        exact Rat.cast_add v w
      refine ⟨List.forall_mem_cons.2
        ⟨⟨⟨v + w, by rw [hv, hw]; rfl⟩, hu.kind, hu.item⟩, hothers⟩, ?_⟩
      rw [List.map_cons, List.sum_cons, List.map_cons, List.sum_cons, denote, hweight, denote,
        denote, hsame]
      ring
    next =>
      obtain ⟨hregular, hvalue⟩ := ih hothers
      refine ⟨List.forall_mem_cons.2 ⟨hu, hregular⟩, ?_⟩
      rw [List.map_cons, List.sum_cons, hvalue, List.map_cons, List.sum_cons, add_left_comm]

theorem joinAll_spec {ts us : List (Weighted Form)} (hts : ∀ t ∈ ts, t.Regular S env)
    (hus : ∀ u ∈ us, u.Regular S env) :
    (∀ u ∈ ts.foldl (fun us t => t.join us) us, u.Regular S env) ∧
      ((ts.foldl (fun us t => t.join us) us).map (denote env)).sum =
        (us.map (denote env)).sum + (ts.map (denote env)).sum := by
  refine foldl_sum (P := Regular S env)
    (Q := fun us : List (Weighted Form) => ∀ u ∈ us, u.Regular S env) (f := denote env)
    (g := fun us => (us.map (denote env)).sum) (fun t us ht hus => ?_) hts hus
  exact join_spec ht hus

omit [Field F] [CharZero F] in
theorem arrange_perm (terms : List (Weighted Form)) : (arrange terms).Perm terms := by
  rw [arrange]
  refine ((List.mergeSort_perm _ _).map _).trans ?_
  simp [Function.comp_def]

end Weighted

namespace Form

theorem terms_spec {a : Form} (ha : a.Regular S env) :
    (∀ t ∈ a.terms, t.Regular S env) ∧ (a.terms.map (Weighted.denote env)).sum = a.denote env := by
  have hsingle : (∀ t ∈ [Weighted.ofForm a], t.Regular S env) ∧
      ([Weighted.ofForm a].map (Weighted.denote env)).sum = a.denote env := by
    obtain ⟨hregular, hvalue⟩ := Weighted.ofForm_spec ha
    refine ⟨List.forall_mem_singleton.2 hregular, ?_⟩
    rw [List.map_singleton, List.sum_singleton, hvalue]
  cases ha with
  | sum weights kinds items =>
    exact ⟨regular_sum.1 (.sum weights kinds items), (denote_sum _).symm⟩
  | _ => exact hsingle

theorem sum_filter_weights (ts : List (Weighted Form)) :
    ((ts.filter (!·.weight.isZero)).map (Weighted.denote env)).sum =
      (ts.map (Weighted.denote env)).sum := by
  refine sum_filter fun t _ h => ?_
  have hweight : t.weight = .exact 0 := by simpa [Scalar.isZero] using h
  rw [Weighted.denote, hweight]
  exact (congrArg (· * _) Rat.cast_zero).trans (zero_mul _)

variable [CharZero F]

theorem denotes_ofTerm {t : Weighted Form} (ht : t.Regular S env) :
    Denotes S env (ofTerm t) (t.denote env) := by
  obtain ⟨q, hq⟩ := ht.weight
  rw [ofTerm, Weighted.denote, hq]
  exact denotes_scale q ht.item

theorem denotes_ofTerms {ts : List (Weighted Form)} (hts : ∀ t ∈ ts, t.Regular S env) :
    Denotes S env (ofTerms ts) (ts.map (Weighted.denote env)).sum := by
  obtain ⟨hjoined, hvalue⟩ := Weighted.joinAll_spec hts (List.forall_mem_nil _)
  rw [List.map_nil, List.sum_nil, zero_add, ← sum_filter_weights] at hvalue
  rw [← hvalue, ofTerms]
  generalize ts.foldl (fun us t => t.join us) [] = joined at hjoined
  have hdefined : (joined.any (·.weight == .undefined)) = false := by
    rw [List.any_eq_false]
    intro t ht
    obtain ⟨q, hq⟩ := (hjoined t ht).weight
    simp [hq]
  have hkept : ∀ t ∈ joined.filter (!·.weight.isZero), t.Regular S env :=
    fun t ht => hjoined t (List.mem_filter.1 ht).1
  rw [hdefined, if_neg Bool.false_ne_true]
  generalize joined.filter (!·.weight.isZero) = kept at hkept
  split
  next => exact ⟨.scalar 0, Rat.cast_zero⟩
  next t =>
    rw [List.map_singleton, List.sum_singleton]
    exact denotes_ofTerm (hkept t List.mem_cons_self)
  next =>
    have hperm := Weighted.arrange_perm kept
    refine ⟨regular_sum.2 fun t ht => hkept t (hperm.subset ht), ?_⟩
    rw [denote_sum, (hperm.map _).sum_eq]

omit [CharZero F] in
/-- Forms that are zero add nothing. -/
theorem sum_filter_zero (forms : List Form) :
    ((forms.filter (· ≠ scalar (.ofInt 0))).map (denote env)).sum =
      (forms.map (denote env)).sum := by
  refine sum_filter fun a _ h => ?_
  obtain rfl : a = scalar (.ofInt 0) := by simpa using h
  exact Rat.cast_zero

omit [CharZero F] in
theorem terms_flatMap_spec {forms : List Form} (h : ∀ a ∈ forms, a.Regular S env) :
    (∀ t ∈ forms.flatMap terms, t.Regular S env) ∧
      ((forms.flatMap terms).map (Weighted.denote env)).sum = (forms.map (denote env)).sum := by
  induction forms with
  | nil => exact ⟨List.forall_mem_nil _, rfl⟩
  | cons a forms ih =>
    obtain ⟨ha, hothers⟩ := List.forall_mem_cons.1 h
    obtain ⟨hregular, hvalue⟩ := ih hothers
    obtain ⟨hterms, hsum⟩ := terms_spec ha
    rw [List.flatMap_cons]
    refine ⟨List.forall_mem_append.2 ⟨hterms, hregular⟩, ?_⟩
    rw [List.map_append, List.sum_append, hvalue, hsum, List.map_cons, List.sum_cons]

/-- **The sum of some forms.** -/
theorem denotes_ofSum {forms : List Form} (h : ∀ a ∈ forms, a.Regular S env) :
    Denotes S env (ofSum forms) (forms.map (denote env)).sum := by
  rw [← sum_filter_zero, ofSum]
  have hkept : ∀ a ∈ forms.filter (· ≠ scalar (.ofInt 0)), a.Regular S env :=
    fun a ha => h a (List.mem_filter.1 ha).1
  generalize forms.filter (· ≠ scalar (.ofInt 0)) = kept at hkept
  split
  next a =>
    rw [List.map_singleton, List.sum_singleton]
    exact ⟨hkept a List.mem_cons_self, rfl⟩
  next =>
    have hperm := partition_perm isSum kept
    obtain ⟨hterms, hvalue⟩ := terms_flatMap_spec fun a ha => hkept a (hperm.subset ha)
    rw [← (hperm.map _).sum_eq, ← hvalue]
    exact denotes_ofTerms hterms

end Form

end Isolate.Symbolic
