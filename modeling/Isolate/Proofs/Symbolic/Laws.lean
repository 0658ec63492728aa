import Isolate.Proofs.Symbolic.Rational
import Isolate.Proofs.Symbolic.Value
import Isolate.Symbolic.Compiled

/-!
# What is asked of an algebra of symbols

An algebra of symbols may collect, reorder and cancel as it likes, as long as its expressions go on
denoting the same.  What they denote is a matter of the values that the symbols have: elements of a
field, all of them or only some.  These are the laws that results about trees in an algebra rest on,
whichever algebra that is; the algebra of forms obeys them.

* `Calculus.Preserves` - putting expressions together keeps to the arithmetic of a field;
* `Calculus.Decides` - what is simplified to zero is what denotes zero;
* `Calculus.Compiles` - a compiled expression gives the number that it denotes;
* `Form.preserves`, `Form.decides`, `Form.compiles` - **the algebra of forms obeys these laws**.
-/

namespace Isolate

open Symbolic

/-! ## Laws -/

namespace Calculus

variable {ε α F : Type} [Field F]

/-- **The algebra preserves what is denoted.**  Where some symbols have values in a field, `denotes`
relates expressions to elements of the field.  What the algebra puts together from expressions
denotes what the field makes of the elements that these denote, unless zero is inverted. -/
structure Preserves (C : Calculus ε α) (values : String → Option F) (denotes : ε → F → Prop) :
    Prop where
  integer (n : ℤ) : denotes (C.integer n) n
  read (n : ℤ) : ∃ e, C.read (.int n) = .ok e ∧ denotes e n
  symbol {name : String} {x : F} (known : values name = some x) : denotes (C.symbol name) x
  neg {e : ε} {x : F} (he : denotes e x) : denotes (C.neg e) (-x)
  sub {e f : ε} {x y : F} (he : denotes e x) (hf : denotes f y) : denotes (C.sub e f) (x - y)
  sum {es : List ε} {xs : List F} (hes : List.Forall₂ denotes es xs) : denotes (C.sum es) xs.sum
  product {es : List ε} {xs : List F} (hes : List.Forall₂ denotes es xs) :
    denotes (C.product es) xs.prod
  power {e : ε} {x : F} (he : denotes e x) (n : ℤ) (hn : n < 0 → x ≠ 0) :
    denotes (C.power e (C.integer n)) (x ^ n)

/-- **The algebra decides what is zero**: among the expressions that denote rational functions of
the symbols, exactly those are simplified to zero that denote zero. -/
structure Decides (C : Calculus ε α) (denotes : ε → Functions → Prop) : Prop where
  preserves : C.Preserves (fun name => some (Functions.symbol name)) denotes
  isZero {e : ε} {x : Functions} (he : denotes e x) : C.isZero (C.simplify e) = true ↔ x = 0

end Calculus

/-- The argument that a name is paired with. -/
def paired {α : Type} (names : List String) (arguments : List α) (name : String) : Option α :=
  (names.zip arguments).lookup name

/-- **The algebra compiles what is denoted**: if an expression denotes a number where different
names are paired with numbers, it can be compiled for these names, and the function gives the number
at the arguments. -/
structure Calculus.Compiles {ε : Type} (C : Calculus ε ℚ)
    (denotes : (String → Option ℚ) → ε → ℚ → Prop) : Prop where
  preserves (values : String → Option ℚ) : C.Preserves values (denotes values)
  compile {names : List String} {arguments : List ℚ} {e : ε} {x : ℚ} (distinct : names.Nodup)
    (length : names.length = arguments.length) (he : denotes (paired names arguments) e x) :
    ∃ f, C.compile names e = .ok f ∧ f arguments = .ok x

theorem exists_paired {α : Type} {names : List String} {arguments : List α}
    (hlength : names.length = arguments.length) {name : String} (hname : name ∈ names) :
    ∃ x, paired names arguments name = some x := by
  cases hlookup : paired names arguments name with
  | some x => exact ⟨x, rfl⟩
  | none =>
    have hpaired : name ∈ (names.zip arguments).map Prod.fst := by
      rwa [List.map_fst_zip hlength.le]
    obtain ⟨entry, hentry, rfl⟩ := List.mem_map.1 hpaired
    exact absurd (List.lookup_eq_none_iff.1 hlookup entry hentry) (by simp)

theorem mem_of_paired {α : Type} {names : List String} {arguments : List α} {name : String}
    (h : (paired names arguments name).isSome) : name ∈ names := by
  obtain ⟨x, hx⟩ := Option.isSome_iff_exists.1 h
  obtain ⟨before, after, hzip, -⟩ := List.lookup_eq_some_iff.1 hx
  have hmem : (name, x) ∈ names.zip arguments := hzip ▸ by simp
  exact (List.of_mem_zip hmem).1

/-! ## Forms -/

namespace Symbolic

/-- Exact arithmetic of rational numbers. Any exact constant can be written. -/
def Machine.exact : Machine Float ℚ ℚ where
  kernel := Isolate.Reading.whole.kernel
  constant
    | .exact q => .ok q
    | _ => .error .undefined
  named _ := .error .undefined
  argument := id
  result := id
  isWritable _ := true
  partly _ _ _ := .error .arguments

namespace Form

section

variable {F : Type} [Field F] {S : Set String} {env : String → F} {a : Form}

/-! ### Symbols and functions of regular forms -/

/-- A regular form has no symbols but the given ones. -/
theorem Regular.mem_of_occurs (ha : a.Regular S env) : ∀ name ∈ a.occurrences, name ∈ S := by
  induction ha with
  | scalar q => exact List.forall_mem_nil _
  | symbol known => exact List.forall_mem_singleton.2 known
  | sum weights kinds items ih =>
    intro name hname
    rw [occurrences, termOccurrences_eq, List.mem_flatMap] at hname
    obtain ⟨t, ht, hname⟩ := hname
    exact ih t ht name hname
  | product q atoms exponents bases ih =>
    intro name hname
    rw [occurrences, factorOccurrences_eq, List.mem_flatMap] at hname
    obtain ⟨f, hf, hname⟩ := hname
    obtain ⟨n, hn, -⟩ := exponents f hf
    rw [hn, occurrences, List.append_nil] at hname
    exact ih f hf name hname

theorem termFunctions_eq (terms : List (Weighted Form)) :
    termFunctions terms = terms.flatMap (·.item.functions) := by
  induction terms with
  | nil => rfl
  | cons t terms ih => rw [termFunctions, ih, List.flatMap_cons]

/-- A whole power of a symbol or of a sum applies no function but those of its base. -/
theorem factorFunctions_cons {b : Form} (hatom : b.IsAtom) (n : ℤ)
    (factors : List (Powered Form)) :
    factorFunctions (⟨b, scalar (.ofInt n)⟩ :: factors)
      = b.functions ++ factorFunctions factors := by
  have heuler : same b euler = false := by
    cases b with
    | scalar c => exact hatom.elim
    | named c => exact hatom.elim
    | _ => rfl
  rw [factorFunctions, heuler, isHalf_ofInt]
  rfl

/-- A regular form applies no function. -/
theorem Regular.functions_eq (ha : a.Regular S env) : a.functions = [] := by
  induction ha with
  | scalar q => rfl
  | symbol known => rfl
  | sum weights kinds items ih =>
    rw [functions, termFunctions_eq, List.flatMap_eq_nil_iff]
    exact ih
  | @product q factors atoms exponents bases ih =>
    rw [functions]
    clear bases
    induction factors with
    | nil => rfl
    | cons f factors ihFactors =>
      obtain ⟨hatom, hatoms⟩ := List.forall_mem_cons.1 atoms
      obtain ⟨⟨n, hn, -⟩, hexponents⟩ := List.forall_mem_cons.1 exponents
      obtain ⟨hf, hothers⟩ := List.forall_mem_cons.1 ih
      obtain ⟨b, e⟩ := f
      obtain rfl : e = Form.scalar (.ofInt n) := hn
      rw [factorFunctions_cons hatom, ihFactors hatoms hexponents hothers, List.append_nil]
      exact hf

/-! ### The laws -/

/-- A regular form denotes its value where some symbols have values. -/
def DenotesAt (values : String → Option F) (a : Form) (x : F) : Prop :=
  a.Denotes {name | (values name).isSome} (fun name => (values name).getD 0) x

theorem denotes_of_forall₂ {forms : List Form} {xs : List F}
    (h : List.Forall₂ (Denotes S env) forms xs) :
    (∀ a ∈ forms, a.Regular S env) ∧ forms.map (denote env) = xs := by
  induction h with
  | nil => exact ⟨List.forall_mem_nil _, rfl⟩
  | cons ha _ ih =>
    refine ⟨List.forall_mem_cons.2 ⟨ha.regular, ih.1⟩, ?_⟩
    rw [List.map_cons, ha.value, ih.2]

end

variable {ν α β F : Type} [Field F] [CharZero F]

/-- **The algebra of forms preserves what is denoted.** -/
theorem preserves (M : Machine ν β α) (values : String → Option F) :
    (calculus M).Preserves values (DenotesAt values) where
  integer n := ⟨.scalar n, Rat.cast_intCast n⟩
  read n := ⟨_, rfl, .scalar n, Rat.cast_intCast n⟩
  symbol known := by
    refine ⟨.symbol ?_, ?_⟩
    · simp [known]
    · simp [calculus, denote, known]
  neg he := he.value ▸ denotes_neg he.regular
  sub {a b x y} ha hb := by
    have hneg := denotes_neg hb.regular
    have hsum := denotes_ofSum (List.forall_mem_cons.2
      ⟨ha.regular, List.forall_mem_singleton.2 hneg.regular⟩)
    refine ⟨hsum.regular, ?_⟩
    rw [sub_eq_add_neg, ← ha.value, ← hb.value, ← hneg.value]
    exact hsum.value.trans (by simp)
  sum hes := by
    obtain ⟨hregular, rfl⟩ := denotes_of_forall₂ hes
    exact denotes_ofSum hregular
  product hes := by
    obtain ⟨hregular, rfl⟩ := denotes_of_forall₂ hes
    exact denotes_ofProduct hregular
  power he n hn := by
    rw [← he.value] at hn ⊢
    exact denotes_raisedTo he.regular hn

/-- **The algebra of forms decides what is zero.** -/
theorem decides (M : Machine ν β α) :
    (calculus M).Decides (DenotesAt fun name => some (Functions.symbol name)) where
  preserves := preserves M _
  isZero {a x} ha := by
    have hzero : a.isZero = true ↔ x = 0 :=
      (isZero_iff Functions.generic ha.regular).trans (Eq.congr_left ha.value)
    rw [← hzero, calculus]
    dsimp only
    split
    next h => simp [h]
    next h =>
      -- a form that is not simplified does not stand for zero, and zero does
      have hne : a ≠ scalar (.ofInt 0) := by
        rintro rfl
        exact h rfl
      simp [h, hne]

/-- Exact arithmetic reads every name as the argument that it is paired with. -/
theorem isExact_reading (names : List String) (arguments : List ℚ) :
    (Machine.exact.reading names arguments).IsExact {name | (paired names arguments name).isSome}
      fun name => (paired names arguments name).getD 0 where
  kernel := rfl
  constant q := rfl
  symbol {name} known := by
    obtain ⟨x, hx⟩ := Option.isSome_iff_exists.1 known
    have hlookup : (names.zip arguments).lookup name = some x := hx
    simp only [Machine.reading, readingOver, hlookup, hx]
    rfl

/-- A call in exact arithmetic gives the number that a form denotes. -/
theorem DenotesAt.call_eq {names : List String} {arguments : List ℚ} {a : Form} {x : ℚ}
    (hlength : names.length = arguments.length) (ha : a.DenotesAt (paired names arguments) x) :
    a.call .exact names arguments = .ok x := by
  have hfunctions : a.hidesFunction names = false := by
    rw [hidesFunction, ha.regular.functions_eq]
    rfl
  have hsymbols : a.occurrences.all names.contains = true := by
    refine List.all_eq_true.2 fun name hname => List.contains_iff_mem.2 ?_
    exact mem_of_paired (ha.regular.mem_of_occurs name hname)
  have hvalue := (ha.regular.hasValue (isExact_reading names arguments)).alone
  rw [call, if_neg (by simp [hfunctions, hlength]), if_pos hsymbols, hvalue, ha.value]
  rfl

/-- **The algebra of forms compiles what is denoted**, in exact arithmetic. -/
theorem compiles : (calculus .exact).Compiles DenotesAt where
  preserves := preserves .exact
  compile {names arguments a x} hnames hlength ha := by
    have hdups : names.eraseDups.length = names.length :=
      ((List.perm_ext_iff_of_nodup (nodup_eraseDups names) hnames).2
        fun _ => List.mem_eraseDups).length_eq
    have hwritable : a.scalars.all Machine.exact.isWritable = true :=
      List.all_eq_true.2 fun _ _ => rfl
    refine ⟨a.call .exact names, ?_, ha.call_eq hlength⟩
    show compile .exact names a = _
    rw [compile, hdups, if_neg (lt_irrefl _), if_pos hwritable]

end Form

end Symbolic

end Isolate
