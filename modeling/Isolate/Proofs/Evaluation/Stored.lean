import Isolate.Proofs.Evaluation.Elementwise
import Isolate.Proofs.Evaluation.Refusal
import Isolate.Proofs.Tree.Constant

/-!
# Trees that need no bindings

A tree whose variables all have a stored value can be evaluated without any column.  Nothing is
assumed of the operations but that they never refuse the values that can come up; for arrays of
doubles these are the arrays without dimensions.

* `exists_evaluate_of_constant` - evaluation without columns succeeds;
* `value_of_built` - with single numbers for the names, a tree of doubles has a value unless some
  variable is neither bound nor stored;
* `exists_value_of_constant` - so it has one without any, if all variables are stored.
-/

namespace Isolate

variable {ν α : Type}

/-- **A built tree whose variables are all stored is evaluated without columns**, by any operations
that do not refuse. -/
theorem Tree.exists_evaluate_of_constant {K : Kernel ν α} {P : α → Prop} (hK : K.IsTotalOn P)
    {listed : String → Bool} {t : Tree ν} (ht : t.Built)
    (hconstant : t.evaluatesConstant listed = true) :
    ∃ a, t.evaluate K (fun _ => none) = .ok a ∧ P a := by
  rcases evaluate_of_built hK (fun _ _ h => absurd h.symm (Option.some_ne_none _)) ht with
    ⟨hvalue, _⟩ | ⟨name, hleaf, _⟩
  · exact hvalue
  · exact absurd hleaf (not_mem_variableLeaves_of_constant hconstant _)

/-! ## Doubles -/

theorem Grid.exists_zipWith_of_scalars {β γ : Type} (f : α → β → γ) {g : Grid α} {h : Grid β}
    (hg : g.dims = []) (hh : h.dims = []) : ∃ k, Grid.zipWith f g h = .ok k ∧ k.dims = [] := by
  refine ⟨⟨[], fun index => f (g.get index) (h.get index)⟩, ?_, rfl⟩
  simp [zipWith, hg, hh, broadcast?]

/-- Doubles never refuse single numbers. -/
theorem Arithmetic.isTotalOn_doubles : Arithmetic.doubles.IsTotalOn (·.dims = []) where
  number _ := rfl
  start kind := by cases kind <;> rfl
  step kind {total term} htotal hterm := by
    obtain ⟨item, positive⟩ := term
    cases kind <;> cases positive <;> exact Grid.exists_zipWith_of_scalars _ htotal hterm
  pow ha hb := Grid.exists_zipWith_of_scalars _ ha hb
  apply f g hg := ⟨Arithmetic.floats.applyFlat f g, rfl, hg⟩

/-- Bindings that are single numbers. -/
def Samples.AreScalars (bindings : Samples) : Prop :=
  ∀ entry ∈ bindings, ∃ g, entry.2.grid = .ok g ∧ g.dims = []

namespace Tree

/-- A double as a plain value is the array of a single number. -/
theorem grid_real (x : Float) : (Datum.real x).grid = .ok (Grid.scalar x) := by
  have hvalues : Grid.ofValues [] #[x] = Grid.scalar x := by
    simp [Grid.ofValues, Grid.scalar, Grid.offset]
  rw [← hvalues]
  rfl

/-- A column is read when it is looked up. -/
theorem columns_table (data : Samples) (name : String) :
    data.table.columns name = (data.lookup name).map Datum.grid := by
  have hlookup : data.table.lookup name = (data.lookup name).map fun d => ⟨d.dims, d.grid⟩ :=
    Arrays.lookup_map (fun d : Datum => Column.mk d.dims d.grid) name data
  rw [Table.columns, hlookup, Option.map_map]
  rfl

/-- Where single numbers are bound, every column is one. -/
theorem columns_of_areScalars {bindings : Samples} (hb : bindings.AreScalars) (name : String)
    (column : Except Fault (Grid Float)) (h : bindings.table.columns name = some column) :
    ∃ g, column = .ok g ∧ g.dims = [] := by
  rw [columns_table, Option.map_eq_some_iff] at h
  obtain ⟨d, hd, rfl⟩ := h
  obtain ⟨before, after, heq, _⟩ := List.lookup_eq_some_iff.1 hd
  exact hb (name, d) (by rw [heq]; simp)

/-- A tree whose array is a single number evaluates to that number. -/
theorem value_of_scalar {t : Tree Float} {bindings : Samples} {g : Grid Float}
    (hg : t.valueOn bindings = .ok g) (hdims : g.dims = []) :
    t.value bindings = .ok (g.entry []) := by
  have hresult : t.resultOn Arithmetic.doubles bindings.table = .ok g := hg
  rw [value, result, hresult, ok_bind]
  simp [Grid.toScalar, hdims]

/-- A tree without an array has no value. -/
theorem value_of_error {t : Tree Float} {bindings : Samples} {fault : Fault}
    (h : t.valueOn bindings = .error fault) : t.value bindings = .error fault := by
  have hresult : t.resultOn Arithmetic.doubles bindings.table = .error fault := h
  rw [value, result, hresult, error_bind]

/-- **A built tree evaluates to a number** under single numbers, unless some variable is neither
bound nor stored. -/
theorem value_of_built {t : Tree Float} (ht : t.Built) {bindings : Samples}
    (hb : bindings.AreScalars) :
    ((∃ g, t.valueOn bindings = .ok g) ∧ (∃ x, t.value bindings = .ok x) ∧
        ∀ name : String, (.text name, none) ∈ t.variableLeaves → bindings.lookup name ≠ none) ∨
      ∃ name : String, (.text name, none) ∈ t.variableLeaves ∧ bindings.lookup name = none ∧
        t.valueOn bindings = .error (.unbound (.text name)) ∧
        t.value bindings = .error (.unbound (.text name)) := by
  have hnone : ∀ name, bindings.table.columns name = none ↔ bindings.lookup name = none := by
    intro name
    rw [columns_table, Option.map_eq_none_iff]
  rcases evaluate_of_built Arithmetic.isTotalOn_doubles (columns_of_areScalars hb) ht with
    ⟨⟨g, hg, hdims⟩, hall⟩ | ⟨name, hleaf, hcolumn, hg⟩
  · exact .inl ⟨⟨g, hg⟩, ⟨_, value_of_scalar hg hdims⟩,
      fun name hleaf hlookup => hall name hleaf ((hnone name).2 hlookup)⟩
  · exact .inr ⟨name, hleaf, (hnone name).1 hcolumn, hg, value_of_error hg⟩

/-- A built tree of doubles whose variables are all stored has a value without bindings. -/
theorem exists_value_of_constant {listed : String → Bool} {t : Tree Float} (ht : t.Built)
    (hconstant : t.evaluatesConstant listed = true) : ∃ x, t.value [] = .ok x := by
  have hscalars : Samples.AreScalars [] := fun entry hentry => absurd hentry List.not_mem_nil
  rcases value_of_built ht hscalars with ⟨_, hvalue, _⟩ | ⟨name, hleaf, _⟩
  · exact hvalue
  · exact absurd hleaf (not_mem_variableLeaves_of_constant hconstant _)

end Tree

end Isolate
