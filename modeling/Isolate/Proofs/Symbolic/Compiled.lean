import Isolate.Proofs.Distinct
import Isolate.Proofs.Symbolic.Equivalent
import Isolate.Proofs.Tree.Names
import Isolate.Proofs.Tree.Walk

/-!
# Compiled rational functions

A tree can be called with numbers, or it can be evaluated where the numbers are bound to its names.
A call takes what an algebra of symbols makes of the tree, in which factors may have been cancelled
and terms collected, and placeholders are symbols there; an evaluation takes the tree itself, where a
placeholder is zero.  In exact arithmetic they agree on rational functions wherever nothing is
divided by zero, as long as the algebra compiles what its expressions denote: at one point the
expression of a tree denotes the value of the tree.

* `Tree.valueExactly` - the value of a tree where names are bound to rational numbers;
* `Tree.IsRational.valueExactly_eq` - this is its value as a rational function;
* `Tree.freeVariables_sorted`, `Tree.mem_freeVariables` - the names where none are given;
* `Tree.call_agrees` - **calling a tree agrees with evaluating it**.
-/

namespace Isolate

open Symbolic

namespace Tree

variable {t : Tree Float} {names : List String} {arguments : List ℚ} {ε : Type}
  {C : Calculus ε ℚ} {denotes : (String → Option ℚ) → ε → ℚ → Prop}

/-! ## Placeholders that are zero -/

theorem nameHolesTerms_eq {ν : Type} (terms : List (Signed (Tree ν))) :
    nameHolesTerms terms = terms.map (·.map nameHoles) := by
  induction terms with
  | nil => rfl
  | cons t terms ih => rw [nameHolesTerms, ih, List.map_cons, Signed.map]

/-- The name of a placeholder, if it is a text. -/
def placeholder? : Tree Float → Option String
  | hole name => name.text?
  | _ => none

/-- The names of the placeholders of a tree, from left to right. -/
def placeholders (t : Tree Float) : List String := t.preorder.filterMap placeholder?

theorem placeholders_seq (kind : SeqKind) (terms : List (Signed (Tree Float))) :
    (seq kind terms).placeholders = terms.flatMap (·.item.placeholders) :=
  filterMap_preorder_seq rfl

theorem placeholders_pow (base exponent : Tree Float) :
    (pow base exponent).placeholders = base.placeholders ++ exponent.placeholders :=
  filterMap_preorder_pow rfl

/-- A tree is evaluated as if its placeholders were symbols, where those are zero. -/
theorem IsRational.evaluate_eq (ht : t.IsRational) {columns : Columns ℚ} {ρ : String → ℚ}
    (hsymbols : ∀ name ∈ t.symbols, columns name = some (.ok (ρ name)))
    (hzero : ∀ name ∈ t.placeholders, ρ name = 0) :
    t.evaluate Reading.whole.kernel columns
      = t.nameHoles.evaluate Reading.whole.kernel fun name => some (.ok (ρ name)) := by
  induction ht with
  | const hx => rfl
  | var name stored =>
    have hname := hsymbols name (List.mem_singleton_self _)
    simp [nameHoles, evaluate, lookUp, hname]
  | hole name =>
    have hname := hzero name (List.mem_singleton_self _)
    simp [nameHoles, evaluate, lookUp, hname, Reading.kernel]
  | pow base hx ih =>
    rw [symbols_pow] at hsymbols
    rw [placeholders_pow] at hzero
    rw [evaluate, nameHoles, evaluate,
      ih (fun name hname => hsymbols name (List.mem_append_left _ hname))
        fun name hname => hzero name (List.mem_append_left _ hname)]
    rfl
  | seq kind items ih =>
    rw [symbols_seq] at hsymbols
    rw [placeholders_seq] at hzero
    rw [evaluate, nameHoles, evaluate, nameHolesTerms_eq]
    refine congrArg (· >>= _) (evaluateTerms_map fun t ht => ?_).symm
    exact (ih t ht (fun name hname => hsymbols name (List.mem_flatMap_of_mem ht hname))
      fun name hname => hzero name (List.mem_flatMap_of_mem ht hname)).symm

/-! ## Calls -/

/-- The exact value of a tree where names are bound to rational numbers in order. -/
def valueExactly (t : Tree Float) (names : List String) (arguments : List ℚ) : Except Fault ℚ :=
  t.evaluate Reading.whole.kernel fun name => (paired names arguments name).map .ok

/-- The number that a name is paired with. -/
def argument (names : List String) (arguments : List ℚ) (name : String) : ℚ :=
  (paired names arguments name).getD 0

theorem paired_eq_argument (hlength : names.length = arguments.length) {name : String}
    (hname : name ∈ names) :
    paired names arguments name = some (argument names arguments name) := by
  obtain ⟨x, hx⟩ := exists_paired hlength hname
  rw [argument, hx, Option.getD_some]

/-- What a tree inverts is a part of it, and a rational function too. -/
theorem Inverts.part {d : Tree Float} (h : t.Inverts d) (ht : t.IsRational) :
    d.IsRational ∧ d.preorder ⊆ t.preorder := by
  induction h with
  | divisor mem =>
    cases ht with
    | seq _ items => exact ⟨items _ mem, preorder_subset_of_child (List.mem_map_of_mem mem)⟩
  | base exponent negative =>
    cases ht with
    | pow base _ => exact ⟨base, preorder_subset_of_child List.mem_cons_self⟩
  | term mem inner ih =>
    cases ht with
    | seq _ items =>
      obtain ⟨hd, hpart⟩ := ih (items _ mem)
      exact ⟨hd, List.Subset.trans hpart (preorder_subset_of_child (List.mem_map_of_mem mem))⟩
  | inBase inner ih =>
    cases ht with
    | pow base _ =>
      obtain ⟨hd, hpart⟩ := ih base
      exact ⟨hd, List.Subset.trans hpart (preorder_subset_of_child List.mem_cons_self)⟩

/-- Where the placeholders are zero, the value of a tree is its value as a rational function. -/
theorem IsRational.valueExactly_eq (ht : t.IsRational) (hlength : names.length = arguments.length)
    (hsymbols : ∀ name ∈ t.symbols, name ∈ names)
    (hzero : ∀ name ∈ t.placeholders, paired names arguments name = some 0) :
    (t.valueExactly names arguments).toOption = t.wholeValue? (argument names arguments) := by
  rw [valueExactly, ht.evaluate_eq (ρ := argument names arguments)]
  · rfl
  · intro name hname
    rw [paired_eq_argument hlength (hsymbols name hname)]
    rfl
  · intro name hname
    rw [argument, hzero name hname]
    rfl

theorem compiled_some (t : Tree Float) (names : List String) :
    t.compiled C (some (names.map .text)) = t.symbolic C >>= C.compile names := by
  have hwritten : (names.map Name.text).mapM Name.written = .ok names := by
    induction names with
    | nil => rfl
    | cons name names ih =>
      rw [List.map_cons, List.mapM_cons, ih]
      rfl
  simp only [compiled, ok_bind, hwritten]

/-- **A tree that is called gives its value**, in whatever order its symbols are named. -/
theorem IsRational.exists_call (hC : C.Compiles denotes) (ht : t.IsRational) (hnames : names.Nodup)
    (hlength : names.length = arguments.length) (hsymbols : ∀ name ∈ t.symbols, name ∈ names)
    (hzero : ∀ name ∈ t.placeholders, paired names arguments name = some 0)
    (hinverts : ∀ d, t.Inverts d → d.valueExactly names arguments ≠ .ok 0) :
    ∃ f v, t.compiled C (some (names.map .text)) = .ok f ∧ f arguments = .ok v ∧
      t.valueExactly names arguments = .ok v := by
  have hdefined : ∀ d, t.Inverts d → d.wholeValue? (argument names arguments) ≠ some 0 := by
    intro d hd hvalue
    obtain ⟨hrational, hpart⟩ := hd.part ht
    rw [← hrational.valueExactly_eq hlength
      (fun name hname => hsymbols name (List.filterMap_subset symbol? hpart hname))
      fun name hname => hzero name (List.filterMap_subset placeholder? hpart hname)] at hvalue
    exact hinverts d hd (toOption_eq_some_iff.1 hvalue)
  have hbound : ∀ name ∈ t.symbols,
      paired names arguments name = some (argument names arguments name) := fun name hname =>
    paired_eq_argument hlength (hsymbols name hname)
  obtain ⟨e, v, he, hdenotes, hvalue⟩ := hasExpression (hC.preserves (paired names arguments))
    (agreement_at (argument names arguments)) ht hbound hdefined
  obtain ⟨f, hf, hcall⟩ := hC.compile hnames hlength hdenotes
  refine ⟨f, v, ?_, hcall, ?_⟩
  · rw [compiled_some, he, ok_bind, hf]
  · rw [← toOption_eq_some_iff, ht.valueExactly_eq hlength hsymbols hzero]
    exact hvalue

/-! ## Names in order -/

theorem mem_freeVariables {ν : Type} {t : Tree ν} {name : String} :
    name ∈ t.freeVariables ↔ ∃ stored, var (.text name) stored ∈ t.preorder := by
  simp only [freeVariables, sortedOnce, variableNames, List.mem_mergeSort, List.mem_eraseDups,
    List.mem_filterMap]
  constructor
  · rintro ⟨n, ⟨u, hu, hn⟩, hname⟩
    cases u with
    | var m stored =>
      obtain rfl := Option.some.inj hn
      cases m with
      | text m =>
        obtain rfl := Option.some.inj hname
        exact ⟨stored, hu⟩
      | other d => cases hname
    | _ => cases hn
  · rintro ⟨stored, h⟩
    exact ⟨.text name, ⟨_, h, rfl⟩, rfl⟩

/-- A symbol is a variable or a placeholder. -/
theorem mem_symbols_iff {name : String} :
    name ∈ t.symbols ↔ name ∈ t.freeVariables ∨ name ∈ t.placeholders := by
  rw [mem_freeVariables, symbols, placeholders, List.mem_filterMap, List.mem_filterMap]
  constructor
  · rintro ⟨u, hu, hname⟩
    cases u with
    | var n stored =>
      cases n with
      | text n =>
        obtain rfl := Option.some.inj hname
        exact .inl ⟨stored, hu⟩
      | other d => cases hname
    | hole n => exact .inr ⟨_, hu, hname⟩
    | _ => cases hname
  · rintro (⟨stored, h⟩ | ⟨u, hu, hname⟩)
    · exact ⟨_, h, rfl⟩
    · cases u with
      | hole n => exact ⟨_, hu, hname⟩
      | _ => cases hname

/-- The names of the variables are in order, each once. -/
theorem freeVariables_sorted {ν : Type} (t : Tree ν) : t.freeVariables.Pairwise (· < ·) :=
  sortedOnce_pairwise _

theorem IsRational.built (ht : t.IsRational) : t.Built := by
  induction ht with
  | @const x n value => exact .const x
  | var name stored => exact .var name stored
  | hole name => exact .hole name
  | seq kind items ih => exact built_seq ih
  | @pow b x n base exponent ih => exact built_pow ih (.const x)

/-- Where no names are given, they are those of the variables in order. -/
theorem IsRational.compiled_none (ht : t.IsRational) :
    t.compiled C none = t.compiled C (some (t.freeVariables.map .text)) := by
  rw [compiled, compiled, ht.built.orderedNames]

/-- **Calling a tree agrees with evaluating it**, in every algebra of symbols that compiles what its
expressions denote.  A tree of whole numbers, symbols, sums, products and whole powers may be called
with rational numbers for different names, in any order, among them those of all its symbols.  If
its placeholders are zero and nothing that it inverts is, the call gives the value that the tree has
where the numbers are bound to the names, whatever is stored on its variables.  The names may be left
out: then they are those of the variables in order, which are all that is needed where there are no
placeholders. -/
theorem call_agrees (hC : C.Compiles denotes) (ht : t.IsRational) :
    (∀ names arguments, names.Nodup → names.length = arguments.length →
      (∀ name ∈ t.symbols, name ∈ names) →
      (∀ name ∈ t.placeholders, paired names arguments name = some 0) →
      (∀ d, t.Inverts d → d.valueExactly names arguments ≠ .ok 0) →
      ∃ f v, t.compiled C (some (names.map .text)) = .ok f ∧ f arguments = .ok v ∧
        t.valueExactly names arguments = .ok v) ∧
    t.orderedNames = .ok (t.freeVariables.map .text) ∧
    t.freeVariables.Pairwise (· < ·) ∧
    t.compiled C none = t.compiled C (some (t.freeVariables.map .text)) ∧
    (t.placeholders = [] →
      (∀ name, name ∈ t.freeVariables ↔ name ∈ t.symbols) ∧
      ∀ arguments, t.freeVariables.length = arguments.length →
        (∀ d, t.Inverts d → d.valueExactly t.freeVariables arguments ≠ .ok 0) →
        ∃ f v, t.compiled C none = .ok f ∧ f arguments = .ok v ∧
          t.valueExactly t.freeVariables arguments = .ok v) := by
  refine ⟨fun names arguments hnames hlength hsymbols hzero hinverts =>
    ht.exists_call hC hnames hlength hsymbols hzero hinverts, ht.built.orderedNames,
    t.freeVariables_sorted, ht.compiled_none, fun hplaceholders => ?_⟩
  have hmem : ∀ name, name ∈ t.freeVariables ↔ name ∈ t.symbols := by
    simp [mem_symbols_iff, hplaceholders]
  refine ⟨hmem, fun arguments hlength hinverts => ?_⟩
  rw [ht.compiled_none]
  exact ht.exists_call hC (t.freeVariables_sorted.imp fun h => h.ne) hlength
    (fun name hname => (hmem name).2 hname) (by simp [hplaceholders]) hinverts

theorem inverts_seq_iff {kind : SeqKind} {terms : List (Signed (Tree Float))} {d : Tree Float} :
    (seq kind terms).Inverts d ↔
      (kind = .product ∧ ⟨d, false⟩ ∈ terms) ∨ ∃ t ∈ terms, t.item.Inverts d := by
  constructor
  · rintro (mem | _ | ⟨mem, inner⟩)
    · exact .inl ⟨rfl, mem⟩
    · exact .inr ⟨_, mem, inner⟩
  · rintro (⟨rfl, mem⟩ | ⟨t, mem, inner⟩)
    · exact .divisor mem
    · exact .term mem inner

theorem inverts_pow_iff {b d : Tree Float} {x : Float} {n : ℤ}
    (hx : Binary64.integer? x = some n) :
    (pow b (const x)).Inverts d ↔ (n < 0 ∧ d = b) ∨ b.Inverts d := by
  constructor
  · intro h
    cases h with
    | base hx' negative =>
      obtain rfl := Option.some.inj (hx'.symm.trans hx)
      exact .inl ⟨negative, rfl⟩
    | inBase inner => exact .inr inner
  · rintro (⟨negative, rfl⟩ | inner)
    · exact .base hx negative
    · exact .inBase inner

theorem not_inverts_of_leaf {d : Tree Float} (h : t.children = []) : ¬t.Inverts d := by
  rintro (mem | _ | ⟨mem, inner⟩ | inner) <;> simp_all [children]

/-- The tree `(x - y) ^ 2`, with a number stored on one of the variables. -/
def squaredDifference : Tree Float :=
  .pow (.seq .sum [⟨.var (.text "x") none, true⟩, ⟨.var (.text "y") (some 7), false⟩]) (.const 2)

/-- The tree `(x + shift) / (x - y) ^ 2`. -/
def shiftedRatio (shift : Tree Float) : Tree Float :=
  .seq .product [⟨.seq .sum [⟨.var (.text "x") (some 7), true⟩, ⟨shift, true⟩], true⟩,
    ⟨squaredDifference, false⟩]

theorem isRational_shiftedRatio {shift : Tree Float} (h : shift.IsRational) :
    (shiftedRatio shift).IsRational := by
  have hsquare : squaredDifference.IsRational := by
    refine .pow (n := 2) (.seq _ ?_) (by decide +kernel)
    exact List.forall_mem_cons.2 ⟨.var _ _, List.forall_mem_singleton.2 (.var _ _)⟩
  refine .seq _ (List.forall_mem_cons.2 ⟨.seq _ ?_, List.forall_mem_singleton.2 hsquare⟩)
  exact List.forall_mem_cons.2 ⟨.var _ _, List.forall_mem_singleton.2 h⟩

/-- Only the square is inverted. -/
theorem inverts_shiftedRatio {shift d : Tree Float} (hshift : shift.children = [])
    (h : (shiftedRatio shift).Inverts d) : d = squaredDifference := by
  have hx : Binary64.integer? 2 = some 2 := by decide +kernel
  have hvar (name : Name) (stored : Option Float) : ¬(var name stored).Inverts d :=
    not_inverts_of_leaf rfl
  have hsquare : ¬squaredDifference.Inverts d := by
    rw [squaredDifference, inverts_pow_iff hx, inverts_seq_iff]
    simp [hvar]
  simpa [shiftedRatio, inverts_seq_iff, hsquare, hvar, not_inverts_of_leaf hshift] using h

theorem freeVariables_shiftedRatio (x : Float) :
    (shiftedRatio (.const x)).freeVariables = ["x", "y"] := by
  have hnames : (shiftedRatio (.const x)).variableNames.filterMap Name.text? = ["x", "y"] := rfl
  rw [freeVariables, hnames]
  exact List.mergeSort_of_pairwise (by decide)

/-- In the algebra of forms: with three names out of order, one of them that of a placeholder; and
without any names. -/
theorem call_shiftedRatio :
    (Form.calculus .exact).Compiles Form.DenotesAt ∧
      (∃ f, (shiftedRatio (.hole (.text "p"))).compiled (Form.calculus .exact)
        (some [.text "y", .text "p", .text "x"]) = .ok f ∧ f [1, 0, 3] = .ok (3 / 4)) ∧
      ∃ f, (shiftedRatio (.const 1)).compiled (Form.calculus .exact) none = .ok f ∧
        f [3, 1] = .ok 1 := by
  have hhole := isRational_shiftedRatio (.hole "p")
  have hconst := isRational_shiftedRatio (.const (x := 1) (n := 1) (by decide +kernel))
  have hC := Form.compiles
  obtain ⟨f, v, hf, hcall, hvalue⟩ := (call_agrees hC hhole).1 ["y", "p", "x"] [1, 0, 3]
    (by decide) rfl (by decide +kernel) (by decide +kernel) fun d hd => by
      rw [inverts_shiftedRatio rfl hd, ne_eq, ← toOption_eq_some_iff]
      decide +kernel
  obtain ⟨-, -, -, -, hnone⟩ := call_agrees hC hconst
  obtain ⟨-, hnone⟩ := hnone (by decide +kernel)
  rw [freeVariables_shiftedRatio] at hnone
  obtain ⟨g, w, hg, hcallw, hvaluew⟩ := hnone [3, 1] rfl fun d hd => by
      rw [inverts_shiftedRatio rfl hd, ne_eq, ← toOption_eq_some_iff]
      decide +kernel
  rw [← toOption_eq_some_iff] at hvalue hvaluew
  have hv : ((shiftedRatio (.hole (.text "p"))).valueExactly ["y", "p", "x"] [1, 0, 3]).toOption
      = some (3 / 4) := by decide +kernel
  have hw : ((shiftedRatio (.const 1)).valueExactly ["x", "y"] [3, 1]).toOption = some 1 := by
    decide +kernel
  rw [Option.some.inj (hvalue.symm.trans hv)] at hcall
  rw [Option.some.inj (hvaluew.symm.trans hw)] at hcallw
  exact ⟨hC, ⟨f, hf, hcall⟩, g, hg, hcallw⟩

end Tree

end Isolate
