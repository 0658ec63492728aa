import Isolate.Proofs.Evaluation.Constant
import Isolate.Proofs.Tree.Assign

/-!
# Stored values and bindings

A variable has the value that it is bound to, else the one that is stored on it.  So a number can be
assigned to a name, which changes the tree, or handed in for it where nothing else is bound to the
name, which does not: the outcome is the same, whatever the operations do, and a refusal names the
same variable.

* `evaluate_withValue` - one assignment;
* `Table.merged` - some bindings together with the values that were assigned to other names;
* `result_assigned` - **assigned values can be handed in as bindings**, and what follows for the
  order of assignments;
* `value_assigned` - the same for doubles.
-/

namespace Isolate

variable {ν α : Type}

/-! ## Columns -/

/-- Columns, and for every name without one the number last assigned to it. -/
def withStored (K : Kernel ν α) (columns : Columns α) (each : List (String × ν)) : Columns α :=
  fun name => (columns name).or ((each.reverse.lookup name).map fun x => .ok (K.number x))

@[simp] theorem withStored_nil (K : Kernel ν α) (columns : Columns α) :
    withStored K columns [] = columns := by
  funext name
  simp [withStored]

/-- The first of some assignments is the last that counts. -/
theorem withStored_cons (K : Kernel ν α) (columns : Columns α) (entry : String × ν)
    (each : List (String × ν)) :
    withStored K columns (entry :: each) = withStored K (withStored K columns each) [entry] := by
  funext name
  simp only [withStored, List.reverse_cons, List.reverse_nil, List.nil_append, List.lookup_append,
    Option.map_or, Option.or_assoc]

namespace Table

/-- Some bindings, and for every other name the number last assigned to it. -/
def merged (K : Kernel ν (Grid α)) (bindings : Table α) (each : List (String × ν)) : Table α :=
  bindings ++ ofGrids (each.reverse.map fun entry => (entry.1, K.number entry.2))

theorem columns_merged (K : Kernel ν (Grid α)) (bindings : Table α) (each : List (String × ν)) :
    (bindings.merged K each).columns = withStored K bindings.columns each := by
  funext name
  have hstored : (ofGrids (each.reverse.map fun entry => (entry.1, K.number entry.2))).columns name
      = (each.reverse.lookup name).map fun x => .ok (K.number x) := by
    rw [columns_ofGrids, Arrays.lookup_map K.number, Option.map_map]
    rfl
  rw [withStored, ← hstored, columns, merged, List.lookup_append, Option.map_or]
  rfl

end Table

/-! ## Evaluation -/

namespace Tree

/-- **One assignment.**  A stored number and a number handed in for a name that has no column give
the same outcome. -/
theorem evaluate_withValue (K : Kernel ν α) (columns : Columns α) (name : String) (x : ν)
    (t : Tree ν) :
    (t.withValue name x).evaluate K columns
      = t.evaluate K (withStored K columns [(name, x)]) := by
  induction t with
  | var n stored =>
    cases n with
    | text n =>
      simp only [withValue_var, evaluate, lookUp, Name.isKey_text, if_true, Name.text?_text,
        Option.bind_some, Name.isText_text, withStored, List.reverse_singleton, List.lookup_cons,
        List.lookup_nil]
      cases columns n with
      | some column => rfl
      | none =>
        cases n == name with
        | true => rfl
        | false => rfl
    | other d => simp [evaluate, lookUp, Name.isText, Name.text?]
  | seq kind terms ih => rw [withValue_seq, evaluate, evaluate, evaluateTerms_map ih]
  | pow base exponent ihb ihe => rw [withValue_pow, evaluate, evaluate, ihb, ihe]
  | fn id argument ih => rw [withValue_fn, evaluate, evaluate, ih]
  | _ => rfl

/-- Assigning before an evaluation is handing in values for it. -/
theorem evaluate_assigned (K : Kernel ν α) (columns : Columns α) (each : List (String × ν))
    {t : Tree ν} (ht : t.Built) :
    (t.assigned each).evaluate K columns = t.evaluate K (withStored K columns each) := by
  induction each generalizing t with
  | nil => rw [assigned_nil, withStored_nil]
  | cons entry each ih =>
    obtain ⟨name, x⟩ := entry
    rw [assigned_cons ht, ih ht.withValue, evaluate_withValue, ← withStored_cons]

/-- **Assigned values can be handed in as bindings.**  After some numbers have been assigned to
names, none of which is refused, a built tree has the same outcome under some bindings, value or
refusal, as it had before under those bindings together with the number last assigned to every other
name.  So numbers for different names can be assigned in any order, of two numbers for the same name
the later one stays, and every placeholder stays as it is. -/
theorem result_assigned (K : Kernel α (Grid α)) {t : Tree α} (ht : t.Built)
    (each : List (String × α)) (bindings : Table α) :
    (t.assigned each).result K bindings = t.result K (bindings.merged K each) ∧
    (∀ name x, ((t.assigned each).assign name (.ok x)).2 = none) ∧
    (∀ name other x y, name ≠ other →
      t.assigned [(name, x), (other, y)] = t.assigned [(other, y), (name, x)]) ∧
    (∀ name x y, t.assigned [(name, x), (name, y)] = t.assigned [(name, y)]) ∧
    ∀ (i : Nat) (name : Name), t.preorder[i]? = some (hole name) →
      (t.assigned each).preorder[i]? = some (hole name) := by
  refine ⟨?_, fun name x => by rw [assign_ok (ht.assigned each)], fun name other x y hne => ?_,
    fun name x y => ?_, fun i name h => getElem?_preorder_assigned ht each h⟩
  · rw [result, result, resultOn, resultOn, Table.columns_merged, evaluate_assigned _ _ _ ht]
  · rw [assigned_cons ht, assigned_cons ht.withValue, assigned_cons ht, assigned_cons ht.withValue,
      withValue_comm hne]
  · rw [assigned_cons ht, assigned_cons ht.withValue, assigned_cons ht, withValue_withValue]

/-- The product of a variable `x` with no value and a placeholder of the same name, plus `y`. -/
def sharedName : Tree Int :=
  .seq .sum [⟨.seq .product [⟨.var (.text "x") none, true⟩, ⟨.hole (.text "x"), true⟩], true⟩,
    ⟨.var (.text "y") (some 1), true⟩]

theorem built_sharedName : sharedName.Built := by
  refine built_seq ?_
  simp only [List.forall_mem_cons, List.not_mem_nil, false_imp_iff, implies_true, and_true]
  refine ⟨built_seq ?_, .var "y" (some 1)⟩
  simp only [List.forall_mem_cons, List.not_mem_nil, false_imp_iff, implies_true, and_true]
  exact ⟨.var "x" none, .hole "x"⟩

/-- With `x` set to 5 and `y` to 2 and then to 3, and `x` bound to 7, the value is 7 * 0 + 3; the
placeholder stays. -/
theorem result_sharedName :
    (sharedName.Built ∧ "x" ≠ "y" ∧ sharedName.preorder[3]? = some (hole (.text "x"))) ∧
      (sharedName.assigned [("x", 5), ("y", 2), ("y", 3)]).result Arithmetic.integers.grids
          (Table.ofGrids [("x", Grid.scalar 7)]) = .ok 3 ∧
      sharedName.assigned [("x", 5), ("y", 2)] = sharedName.assigned [("y", 2), ("x", 5)] ∧
      (sharedName.assigned [("x", 5), ("y", 2), ("y", 3)]).preorder[3]?
        = some (hole (.text "x")) := by
  have hxy : "x" ≠ "y" := by decide
  have hhole : sharedName.preorder[3]? = some (hole (.text "x")) := rfl
  obtain ⟨hresult, _, hcomm, _, hholes⟩ :=
    result_assigned Arithmetic.integers.grids built_sharedName [("x", 5), ("y", 2), ("y", 3)]
      (Table.ofGrids [("x", Grid.scalar 7)])
  exact ⟨⟨built_sharedName, hxy, hhole⟩, hresult.trans rfl, hcomm "x" "y" 5 2 hxy, hholes 3 _ hhole⟩

/-! ## Doubles -/

/-- Doubles that are assigned can be handed in as bindings. -/
theorem value_assigned {t : Tree Float} (ht : t.Built) (each : List (String × Float))
    (bindings : Samples) :
    (t.assigned each).value bindings
      = t.value (bindings ++ each.reverse.map fun entry => (entry.1, .real entry.2)) := by
  have hcolumns : withStored Arithmetic.doubles bindings.table.columns each
      = (Samples.table
          (bindings ++ each.reverse.map fun entry => (entry.1, .real entry.2))).columns := by
    funext name
    rw [withStored, columns_table, columns_table, List.lookup_append, Option.map_or,
      Arrays.lookup_map Datum.real, Option.map_map]
    simp only [Function.comp_def, grid_real]
    rfl
  rw [value, value, result, result, resultOn, resultOn, evaluate_assigned _ _ _ ht, hcolumns]

end Tree

end Isolate
