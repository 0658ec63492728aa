import Isolate.Proofs.Evaluation.Stored
import Isolate.Proofs.Tree.Walk

/-!
# Columns of doubles

Columns of doubles are evaluated element by element too, but for one thing: where the exponent of a
power is one number throughout a run of bases, simple exponents are worked out directly, and what
comes of that can differ from the power of the single elements.  So what is known of elementwise
arithmetic holds of doubles where no exponent is shared like that (`evaluate_doubles`), as in every
tree without powers.

* `Samples.exists_columns` - plain values that can be read are columns;
* `valueOver_elementwise` - **an expression over columns of doubles** is evaluated element by
  element, if no exponent is shared;
* `valueOver_numbers` - without powers, its elements are the values for single numbers.
-/

namespace Isolate

/-! ## Columns -/

/-- An array that was read has the dimensions that were found first. -/
theorem Datum.dims_of_grid {d : Datum} {g : Grid Float} (h : d.grid = .ok g) :
    d.dims = .ok g.dims := by
  unfold grid gridOf at h
  obtain ⟨dims, hdims, h⟩ := bind_eq_ok_iff.1 h
  obtain ⟨values, _, h⟩ := bind_eq_ok_iff.1 h
  obtain rfl := Except.ok.inj h
  exact hdims

/-- **Plain values that can all be read are columns.** -/
theorem Samples.exists_columns {samples : Samples}
    (h : ∀ entry ∈ samples, ∃ g, entry.2.grid = .ok g) :
    ∃ columns : Arrays Float, samples.table = Table.ofGrids columns := by
  induction samples with
  | nil => exact ⟨[], rfl⟩
  | cons entry samples ih =>
    obtain ⟨name, d⟩ := entry
    obtain ⟨g, hg⟩ := h (name, d) (List.mem_cons_self ..)
    obtain ⟨columns, hcolumns⟩ := ih fun other hother => h other (List.mem_cons_of_mem _ hother)
    have hg : d.grid = .ok g := hg
    refine ⟨(name, g) :: columns, ?_⟩
    show (name, ⟨d.dims, d.grid⟩) :: Samples.table samples
      = (name, ⟨.ok g.dims, .ok g⟩) :: Table.ofGrids columns
    rw [Datum.dims_of_grid hg, hg, hcolumns]

/-- The elements of the columns at an index of a larger array, as plain values. -/
def Arrays.numbers (columns : Arrays Float) (index : List Nat) : Samples :=
  columns.map fun (name, g) => (name, .real (g.get index))

theorem Arrays.table_numbers (columns : Arrays Float) (index : List Nat) :
    (columns.numbers index).table = Table.ofGrids (columns.slice index) := by
  simp only [numbers, slice, Samples.table, Table.ofGrids, List.map_map]
  refine List.map_congr_left fun entry _ => ?_
  have hgrid := Tree.grid_real (entry.2.get index)
  simp only [Function.comp_apply, hgrid, Datum.dims_of_grid hgrid]

namespace Tree

/-! ## Exponents -/

/-- No power in a tree has an exponent that is one number throughout a run of bases. -/
def Unshared (columns : Columns (Grid Float)) (t : Tree Float) : Prop :=
  ∀ base exponent, pow base exponent ∈ t.preorder → ∀ b e,
    base.evaluate Arithmetic.doubles columns = .ok b →
      exponent.evaluate Arithmetic.doubles columns = .ok e → e.isHeldAgainst b = false

/-- A tree without powers. -/
def IsPowerless (t : Tree Float) : Prop := ∀ base exponent, pow base exponent ∉ t.preorder

variable {columns : Columns (Grid Float)} {t : Tree Float}

theorem IsPowerless.unshared (h : t.IsPowerless) : t.Unshared columns :=
  fun base exponent hpow => absurd hpow (h base exponent)

theorem Unshared.child (h : t.Unshared columns) {c : Tree Float} (hc : c ∈ t.children) :
    c.Unshared columns :=
  fun base exponent hpow => h base exponent (preorder_subset_of_child hc hpow)

/-- **Where no exponent is shared, doubles are evaluated element by element.** -/
theorem evaluate_doubles (h : t.Unshared columns) :
    t.evaluate Arithmetic.doubles columns = t.evaluate Arithmetic.floats.grids columns := by
  induction t with
  | seq kind terms ih =>
    have hterms : evaluateTerms Arithmetic.doubles columns terms
        = evaluateTerms Arithmetic.floats.grids columns terms :=
      evaluateTerms_congr fun t ht => ih t ht (h.child (List.mem_map_of_mem ht))
    rw [evaluate, evaluate, hterms]
    rfl
  | pow base exponent ihb ihe =>
    have hbase := ihb (h.child List.mem_cons_self)
    have hexponent := ihe (h.child (List.mem_cons_of_mem _ List.mem_cons_self))
    have hself : pow base exponent ∈ (pow base exponent).preorder := by
      rw [preorder_eq]
      exact List.mem_cons_self
    rw [evaluate, evaluate, ← hbase, ← hexponent]
    cases hb : base.evaluate Arithmetic.doubles columns with
    | error fault => rfl
    | ok b =>
      cases he : exponent.evaluate Arithmetic.doubles columns with
      | error fault => rfl
      | ok e =>
        have hheld : e.isHeldAgainst b = false := h base exponent hself b e hb he
        show Grid.zipWith (if e.isHeldAgainst b then Arithmetic.sharedPower else Float.pow) b e
          = Grid.zipWith Float.pow b e
        simp [hheld]
  | fn id argument ih =>
    rw [evaluate, evaluate, ih (h.child List.mem_cons_self)]
    rfl
  | _ => rfl

/-! ## Expressions over columns -/

/-- **Over columns of doubles, evaluation is evaluation element by element**, if the columns are
within the limits and no exponent is shared.  With common dimensions the expression has those, and
each of its elements is the value of the tree for the elements of the columns there; without, it is
refused. -/
theorem valueOver_elementwise {samples : Samples} {columns : Arrays Float} (ht : t.Built)
    (hread : samples.table = Table.ofGrids columns) (hcovered : t.IsCovered columns)
    (hlimits : samples.table.checkLimits = .ok ()) (hfree : t.Unshared samples.table.columns) :
    (∀ D, broadcastAll? columns.shapes = some D →
      ∃ g, t.valueOver samples = .ok g ∧ g.dims = D ∧
        ∀ index, IsIndex D index →
          t.evaluate Arithmetic.floats.scalars (columns.elements index) = .ok (g.entry index)) ∧
    (broadcastAll? columns.shapes = none → ∃ fault, t.valueOver samples = .error fault) := by
  have hvalue : t.valueOver samples
      = t.resultOver Arithmetic.floats.grids (Table.ofGrids columns) := by
    rw [valueOver_eq_resultOver hlimits, resultOver, resultOn, evaluate_doubles hfree, hread]
    rfl
  rw [hvalue]
  exact ⟨fun D hD => exists_resultOver .floats ht hcovered hD,
    exists_resultOver_error Arithmetic.floats.grids t⟩

/-- The power `x ^ y`. -/
def columnPower : Tree Float := .pow (.var (.text "x") none) (.var (.text "y") none)

/-- Two columns of two numbers each are raised row by row, since neither of them stays at one number.
-/
theorem valueOver_columnPower (a b m n : Float) :
    ∃ g, columnPower.valueOver [("x", .list [.real a, .real b]), ("y", .list [.real m, .real n])]
        = .ok g ∧
      g.dims = [2] ∧ g.entry [0] = a.pow m ∧ g.entry [1] = b.pow n := by
  let samples : Samples := [("x", .list [.real a, .real b]), ("y", .list [.real m, .real n])]
  let columns : Arrays Float := [("x", .ofValues [2] #[a, b]), ("y", .ofValues [2] #[m, n])]
  have hread : samples.table = Table.ofGrids columns := rfl
  have hfree : columnPower.Unshared samples.table.columns := by
    intro base exponent hpow x y hx hy
    obtain ⟨rfl, rfl⟩ : base = .var (.text "x") none ∧ exponent = .var (.text "y") none := by
      simpa [columnPower, preorder] using hpow
    obtain rfl : Grid.ofValues [2] #[a, b] = x := Except.ok.inj hx
    obtain rfl : Grid.ofValues [2] #[m, n] = y := Except.ok.inj hy
    exact Grid.isHeldAgainst_eq_false rfl (by simp [Grid.ofValues])
  have hcovered : columnPower.IsCovered columns := by
    intro leaf hleaf
    obtain rfl | rfl : leaf = (.text "x", none) ∨ leaf = (.text "y", none) := by
      simpa [columnPower] using hleaf
    · exact .inl rfl
    · exact .inl rfl
  obtain ⟨g, hg, hdims, hentry⟩ :=
    (valueOver_elementwise (built_pow (.var "x" none) (.var "y" none)) hread hcovered rfl hfree).1
      [2] rfl
  refine ⟨g, hg, hdims, ?_, ?_⟩
  · exact (Except.ok.inj (hentry [0] (by simp [IsIndex]))).symm
  · exact (Except.ok.inj (hentry [1] (by simp [IsIndex]))).symm

/-- **Without powers, the elements are the values for single numbers**: what the expression gives
at an index is what the tree evaluates to with the numbers there in place of the columns. -/
theorem valueOver_numbers {samples : Samples} {columns : Arrays Float} (ht : t.Built)
    (hread : samples.table = Table.ofGrids columns) (hcovered : t.IsCovered columns)
    (hlimits : samples.table.checkLimits = .ok ()) (hpowers : t.IsPowerless) {D : List Nat}
    (hD : broadcastAll? columns.shapes = some D) :
    ∃ g, t.valueOver samples = .ok g ∧ g.dims = D ∧
      ∀ index, IsIndex D index → t.value (columns.numbers index) = .ok (g.entry index) := by
  obtain ⟨g, hg, hdims, hentry⟩ :=
    (valueOver_elementwise ht hread hcovered hlimits hpowers.unshared).1 D hD
  refine ⟨g, hg, hdims, fun index hindex => ?_⟩
  rw [value, result, resultOn, evaluate_doubles hpowers.unshared, Arrays.table_numbers]
  exact (result_slice .floats ht hcovered index).trans (hentry index hindex)

end Tree

end Isolate
