import Isolate.Proofs.Evaluation.Stored

/-!
# The first fault

Under single numbers, arithmetic refuses nothing: not a division by zero, nor an argument outside
the domain of a function.  What is left are the nodes that stand in the way of a value by
themselves, variables without a value and functions without a rule (`Blocks`).  The codes of the
functions may be any numbers here.

* `refusal?_eq_some_iff` - what a node refuses by itself is what it stands in the way with;
* `value_eq_error_iff` - a tree is refused with the fault of the first such node in postorder;
* `value_first_fault` - **a tree has a value unless a node stands in the way**, and then the first
  one is to blame.
-/

namespace Isolate

namespace Tree

/-- A tree of nodes, with names that can be looked up. -/
structure IsGenuine {ν : Type} (t : Tree ν) : Prop where
  node : ∀ found, foreign found ∉ t.preorder
  key : ∀ name stored, var name stored ∈ t.preorder → name.isKey = true

/-- A node stands in the way of a value by itself, and the fault that says so. -/
inductive Blocks (bindings : Samples) : Tree Float → Fault → Prop
  /-- A variable is neither bound nor stored. -/
  | unbound {name : Name} :
      (∀ text, name = .text text → bindings.lookup text = none) →
        Blocks bindings (var name none) (.unbound name)
  /-- A function of the table has no rule.  It is called by its name. -/
  | noRule {f : Builtin} (argument : Tree Float) :
      f.hasRule = false → Blocks bindings (fn f.code argument) (.unsupported (.text f.name))
  /-- A function is not in the table.  It is called by its code. -/
  | unknown {id : Int} (argument : Tree Float) :
      (∀ f : Builtin, f.code ≠ id) → Blocks bindings (fn id argument) (.unsupported (.int id))

/-! ## Nodes in the way of a value -/

section Nodes

variable {bindings : Samples} {fault : Fault}

theorem refusal?_var_iff {name : Name} (hkey : name.isKey = true) (stored : Option Float) :
    refusal? bindings.table.columns (var name stored) = some fault ↔
      (var name stored).Blocks bindings fault := by
  have hcolumn : (name.text?.bind bindings.table.columns).isSome = false ↔
      ∀ text, name = .text text → bindings.lookup text = none := by
    cases name <;> simp [Name.text?, columns_table]
  constructor
  · intro h
    simp only [refusal?, hkey, if_true, Option.ite_none_left_eq_some, Bool.not_eq_true,
      Bool.or_eq_false_iff, Option.some.injEq] at h
    obtain ⟨⟨hunbound, hstored⟩, rfl⟩ := h
    obtain rfl : stored = none := by simpa using hstored
    exact .unbound (hcolumn.1 hunbound)
  · rintro (hunbound | _ | _)
    simp [refusal?, hkey, hcolumn.2 hunbound]

theorem refusal?_fn_iff (id : Int) (argument : Tree Float) :
    refusal? bindings.table.columns (fn id argument) = some fault ↔
      (fn id argument).Blocks bindings fault := by
  have hcheck : refusal? bindings.table.columns (fn id argument) = some fault ↔
      Builtin.Unsupported id fault := by
    rw [← Builtin.check_eq_error_iff, refusal?]
    cases Builtin.check (.int id) <;> simp
  rw [hcheck]
  constructor
  · rintro (⟨f, hrule⟩ | hunknown)
    · exact .noRule argument hrule
    · exact .unknown argument hunknown
  · intro h
    cases h with
    | noRule _ hrule => exact .noRule _ hrule
    | unknown _ hunknown => exact .unknown hunknown

/-- What a node refuses by itself is what it stands in the way with. -/
theorem refusal?_eq_some_iff {t : Tree Float} (ht : t.IsGenuine) {u : Tree Float}
    (hu : u ∈ t.preorder) :
    refusal? bindings.table.columns u = some fault ↔ u.Blocks bindings fault := by
  cases u with
  | var name stored => exact refusal?_var_iff (ht.key name stored hu) stored
  | fn id argument => exact refusal?_fn_iff id argument
  | foreign found => exact absurd hu (ht.node found)
  | _ =>
    -- these refuse nothing
    constructor
    · intro h
      exact absurd h (by simp [refusal?])
    · intro h
      cases h

end Nodes

/-! ## The first node in the way -/

section Trees

variable {bindings : Samples}

/-- Under single numbers, a tree is refused with the first refusal in postorder. -/
theorem value_eq_error_iff (hb : bindings.AreScalars) {t : Tree Float} {fault : Fault} :
    t.value bindings = .error fault ↔
      t.postorder.findSome? (refusal? bindings.table.columns) = some fault := by
  have houtcome := outcome_evaluate Arithmetic.isTotalOn_doubles (columns_of_areScalars hb) t
  cases hfirst : t.postorder.findSome? (refusal? bindings.table.columns) with
  | none =>
    rw [hfirst, outcome_none_iff] at houtcome
    obtain ⟨g, hg, hdims⟩ := houtcome
    simp [value_of_scalar hg hdims]
  | some first =>
    rw [hfirst, outcome_some_iff] at houtcome
    simp [value_of_error houtcome]

/-- The first refusal in postorder is that of a node in the way with none before it. -/
theorem findSome?_refusal?_iff {t : Tree Float} (ht : t.IsGenuine) {fault : Fault} :
    t.postorder.findSome? (refusal? bindings.table.columns) = some fault ↔
      ∃ before u after, t.postorder = before ++ u :: after ∧ u.Blocks bindings fault ∧
        ∀ v ∈ before, ∀ other, ¬ v.Blocks bindings other :=
  findSome?_eq_some_iff_first fun _ hu _ => refusal?_eq_some_iff ht (mem_postorder.1 hu)

/-- **A tree has a value unless a node stands in the way of it.**  Under single numbers it is
refused exactly if some variable has no value or some function no rule; and the fault is that of the
first such node in postorder, where the children of a node come from left to right and then the node
itself. -/
theorem value_first_fault {t : Tree Float} (ht : t.IsGenuine) (hb : bindings.AreScalars) :
    ((∃ fault, t.value bindings = .error fault) ↔
        ∃ u ∈ t.preorder, ∃ fault, u.Blocks bindings fault) ∧
    ∀ fault, t.value bindings = .error fault ↔
      ∃ before u after, t.postorder = before ++ u :: after ∧ u.Blocks bindings fault ∧
        ∀ v ∈ before, ∀ other, ¬ v.Blocks bindings other := by
  refine ⟨?refused, fun fault => by rw [value_eq_error_iff hb, findSome?_refusal?_iff ht]⟩
  case refused =>
    have hsome : (∃ fault, t.value bindings = .error fault) ↔
        (t.postorder.findSome? (refusal? bindings.table.columns)).isSome = true := by
      simp only [value_eq_error_iff hb, Option.isSome_iff_exists]
    rw [hsome, List.findSome?_isSome_iff]
    constructor
    · rintro ⟨u, hu, hrefused⟩
      obtain ⟨fault, hfault⟩ := Option.isSome_iff_exists.1 hrefused
      have hu := mem_postorder.1 hu
      exact ⟨u, hu, fault, (refusal?_eq_some_iff ht hu).1 hfault⟩
    · rintro ⟨u, hu, fault, hblocks⟩
      exact ⟨u, mem_postorder.2 hu,
        Option.isSome_iff_exists.2 ⟨fault, (refusal?_eq_some_iff ht hu).2 hblocks⟩⟩

/-- The sum `f99(csch(y)) + x / 0 + z` with two faults besides that of the hyperbolic cosecant. -/
def manyFaults : Tree Float :=
  .seq .sum [⟨.fn 99 (.fn Builtin.csch.code (.var (.text "y") none)), true⟩,
    ⟨.seq .product [⟨.var (.text "x") (some 1), true⟩, ⟨.hole (.text "x"), false⟩], true⟩,
    ⟨.var (.text "z") none, true⟩]

/-- The function inside is reached before the function around it, and both before the variable. -/
theorem first_of_manyFaults :
    (manyFaults.IsGenuine ∧ Samples.AreScalars [("y", .real 2)]) ∧
      manyFaults.value [("y", .real 2)] = .error (.unsupported (.text "csch")) := by
  have hgenuine : manyFaults.IsGenuine := by
    constructor
    · simp [manyFaults, preorder, preorderTerms]
    · intro name stored hvar
      simp only [manyFaults, preorder, preorderTerms, List.append_nil, List.cons_append,
        List.nil_append, List.mem_cons, List.not_mem_nil, or_false, reduceCtorEq, false_or,
        var.injEq] at hvar
      obtain ⟨rfl, -⟩ | ⟨rfl, -⟩ | ⟨rfl, -⟩ := hvar <;> rfl
  have hscalars : Samples.AreScalars [("y", .real 2)] := by
    intro entry hentry
    obtain rfl := List.mem_singleton.1 hentry
    exact ⟨_, rfl, rfl⟩
  refine ⟨⟨hgenuine, hscalars⟩, ((value_first_fault hgenuine hscalars).2 _).2 ?_⟩
  refine ⟨[.var (.text "y") none], .fn Builtin.csch.code (.var (.text "y") none), _, rfl,
    .noRule _ rfl, ?_⟩
  intro v hv other hblocks
  obtain rfl := List.mem_singleton.1 hv
  cases hblocks with
  | unbound hunbound => exact absurd (hunbound "y" rfl) (by simp)

end Trees

end Tree

end Isolate
