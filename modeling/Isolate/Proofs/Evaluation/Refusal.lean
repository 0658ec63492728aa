import Isolate.Proofs.Evaluation.Terms
import Isolate.Proofs.Tree.Walk

/-!
# Where evaluation is refused

If the operations do not refuse the values that can come up, then only a node by itself can stand
in the way of a value: a variable with neither a column nor a stored value, a function without a
rule, a name that cannot be looked up, or a plain value.  Evaluation comes to a node after its
children, and to them from left to right; so a refusal is that of the first such node in postorder.

* `Kernel.IsTotalOn` - what is assumed of the operations;
* `Outcome`, `findSome?_eq_some_iff_first` - a value or a refusal, and which refusal is the first;
* `Tree.postorder`, `Tree.refusal?` - that order, and what a node refuses by itself;
* `Tree.outcome_evaluate` - **a tree has a value, or the first refusal in postorder**;
* `Tree.evaluate_of_built` - a built tree has a value unless some variable lacks one, and then the
  refusal names such a variable.
-/

namespace Isolate

variable {ν α β : Type}

/-! ## Operations that do not refuse -/

/-- The operations of a kernel never refuse values with a property, and keep the property. -/
structure Kernel.IsTotalOn (K : Kernel ν α) (P : α → Prop) : Prop where
  number : ∀ v, P (K.number v)
  start : ∀ kind, P (K.start kind)
  step : ∀ kind {total : α} {term : Signed α}, P total → P term.item →
    ∃ a, K.step kind total term = .ok a ∧ P a
  pow : ∀ {a b}, P a → P b → ∃ c, K.pow a b = .ok c ∧ P c
  apply : ∀ f {a}, P a → ∃ c, K.apply f a = .ok c ∧ P c

namespace Kernel.IsTotalOn

variable {K : Kernel ν α} {P : α → Prop}

theorem exists_combine (h : K.IsTotalOn P) (kind : SeqKind) {values : List (Signed α)}
    (hvalues : ∀ s ∈ values, P s.item) : ∃ a, K.combine kind values = .ok a ∧ P a := by
  -- some terms have been combined already
  have hfold : ∀ (rest : List (Signed α)) (total : α), (∀ s ∈ rest, P s.item) → P total →
      ∃ a, rest.foldlM (K.step kind) total = .ok a ∧ P a := by
    intro rest
    induction rest with
    | nil => exact fun total _ htotal => ⟨total, rfl, htotal⟩
    | cons s rest ih =>
      intro total hrest htotal
      obtain ⟨next, hnext, hkeep⟩ := h.step kind htotal (hrest s (List.mem_cons_self ..))
      obtain ⟨a, ha, hP⟩ := ih next (fun t ht => hrest t (List.mem_cons_of_mem _ ht)) hkeep
      exact ⟨a, by rw [List.foldlM_cons, hnext, ok_bind, ha], hP⟩
  exact hfold values _ hvalues (h.start kind)

end Kernel.IsTotalOn

/-! ## Outcomes -/

/-- What an operation comes to: a value with a property, or a refusal where there is one. -/
inductive Outcome (P : α → Prop) : Option Fault → Except Fault α → Prop
  | value {a : α} : P a → Outcome P none (.ok a)
  | refused (fault : Fault) : Outcome P (some fault) (.error fault)

/-- The first refusal of two operations is the one that counts. -/
theorem Outcome.bind {P : α → Prop} {Q : β → Prop} {r r' : Option Fault} {x : Except Fault α}
    {f : α → Except Fault β} (h : Outcome P r x) (hf : ∀ a, P a → Outcome Q r' (f a)) :
    Outcome Q (r.or r') (x >>= f) := by
  cases h with
  | value ha => exact hf _ ha
  | refused fault => exact .refused fault

theorem Outcome.map {P : α → Prop} {Q : β → Prop} {r : Option Fault} {x : Except Fault α}
    {f : α → β} (h : Outcome P r x) (hf : ∀ a, P a → Q (f a)) :
    Outcome Q r (x >>= fun a => .ok (f a)) := by
  cases h with
  | value ha => exact .value (hf _ ha)
  | refused fault => exact .refused fault

@[simp] theorem outcome_none_iff {P : α → Prop} {x : Except Fault α} :
    Outcome P none x ↔ ∃ a, x = .ok a ∧ P a := by
  constructor
  · rintro (ha | _)
    exact ⟨_, rfl, ha⟩
  · rintro ⟨a, rfl, ha⟩
    exact .value ha

@[simp] theorem outcome_some_iff {P : α → Prop} {fault : Fault} {x : Except Fault α} :
    Outcome P (some fault) x ↔ x = .error fault := by
  constructor
  · rintro (_ | _)
    rfl
  · rintro rfl
    exact .refused fault

section Outcome

variable {P : α → Prop} {r : Option Fault} {x : Except Fault α}

theorem Outcome.eq_error_iff (h : Outcome P r x) {fault : Fault} :
    x = .error fault ↔ r = some fault := by
  cases h <;> simp

theorem Outcome.exists_ok_iff (h : Outcome P r x) : (∃ a, x = .ok a) ↔ r = none := by
  cases h <;> simp

theorem Outcome.exists_error_iff (h : Outcome P r x) :
    (∃ fault, x = .error fault) ↔ r ≠ none := by
  cases h <;> simp

theorem Outcome.of_eq_ok (h : Outcome P r x) {a : α} (hx : x = .ok a) : P a := by
  cases h with
  | value ha => exact Except.ok.inj hx ▸ ha
  | refused fault => exact absurd hx (by simp)

end Outcome

/-! ## The first refusal -/

section First

variable {f : α → Option β} {R : α → β → Prop} {items : List α}
  (h : ∀ a ∈ items, ∀ b, f a = some b ↔ R a b)

include h

/-- No item has an answer exactly if a relation that says what the answers are has none. -/
theorem findSome?_eq_none_iff_forall :
    items.findSome? f = none ↔ ∀ a ∈ items, ∀ b, ¬ R a b := by
  rw [List.findSome?_eq_none_iff]
  refine forall₂_congr fun a ha => ?_
  rw [Option.eq_none_iff_forall_ne_some]
  exact forall_congr' fun b => not_congr (h a ha b)

/-- The first answer is the one that the relation has for an item, and none for those before it. -/
theorem findSome?_eq_some_iff_first {b : β} :
    items.findSome? f = some b ↔
      ∃ before a after, items = before ++ a :: after ∧ R a b ∧
        ∀ c ∈ before, ∀ other, ¬ R c other := by
  rw [List.findSome?_eq_some_iff]
  refine exists_congr fun before => exists_congr fun a => exists_congr fun after =>
    and_congr_right fun hsplit => and_congr (h a (by simp [hsplit]) b) ?_
  rw [← findSome?_eq_none_iff_forall fun c hc => h c (by simp [hsplit, hc]),
    List.findSome?_eq_none_iff]

end First

namespace Tree

/-! ## Postorder -/

mutual

/-- The nodes of a tree, each after its children. -/
def postorder : Tree ν → List (Tree ν)
  | seq kind terms => postorderTerms terms ++ [seq kind terms]
  | pow base exponent => postorder base ++ (postorder exponent ++ [pow base exponent])
  | fn id argument => postorder argument ++ [fn id argument]
  | t => [t]

/-- The nodes of some terms, term by term. -/
def postorderTerms : List (Signed (Tree ν)) → List (Tree ν)
  | [] => []
  | ⟨t, _⟩ :: rest => postorder t ++ postorderTerms rest

end

theorem postorderTerms_eq (terms : List (Signed (Tree ν))) :
    postorderTerms terms = terms.flatMap (·.item.postorder) := by
  induction terms with
  | nil => rfl
  | cons t terms ih => rw [postorderTerms, ih, List.flatMap_cons]

/-- A node comes last, after whatever its children give, child by child. -/
theorem postorder_eq (t : Tree ν) : t.postorder = t.children.flatMap postorder ++ [t] := by
  cases t with
  | seq kind terms => rw [postorder, postorderTerms_eq, children, List.flatMap_map]
  | _ => simp [postorder, children]

theorem mem_postorder {t u : Tree ν} : u ∈ t.postorder ↔ u ∈ t.preorder := by
  induction t using induction_children with
  | node t ih =>
    rw [postorder_eq, preorder_eq, List.mem_append, List.mem_singleton, List.mem_cons, or_comm,
      List.mem_flatMap, List.mem_flatMap]
    refine or_congr_right (exists_congr fun c => and_congr_right fun hc => ih c hc)

/-! ## Refusals -/

/-- What a node by itself refuses, where names have columns. -/
def refusal? (columns : Columns α) : Tree ν → Option Fault
  | var name stored =>
    if name.isKey then
      if (name.text?.bind columns).isSome || stored.isSome then none else some (.unbound name)
    else some (.notKey name)
  | fn id _ =>
    match Builtin.check (.int id) with
    | .ok _ => none
    | .error fault => some fault
  | foreign found => some (.notNode found)
  | _ => none

section Outcomes

variable {K : Kernel ν α} {P : α → Prop} {columns : Columns α}

theorem outcome_lookUp (hK : K.IsTotalOn P)
    (hcolumns : ∀ name column, columns name = some column → ∃ a, column = .ok a ∧ P a)
    (name : Name) (stored : Option ν) :
    Outcome P (refusal? columns (var name stored)) (lookUp K columns name stored) := by
  by_cases hkey : name.isKey = true
  · simp only [lookUp, refusal?, hkey, if_true]
    cases hcolumn : name.text?.bind columns with
    | some column =>
      obtain ⟨text, _, hcolumn⟩ := Option.bind_eq_some_iff.1 hcolumn
      exact outcome_none_iff.2 (hcolumns text column hcolumn)
    | none =>
      cases stored with
      | some value => exact .value (hK.number value)
      | none => exact .refused _
  · simp only [lookUp, refusal?, hkey]
    exact .refused _

theorem outcome_call (hK : K.IsTotalOn P) (id : Int) (argument : Tree ν) {a : α} (ha : P a) :
    Outcome P (refusal? columns (fn id argument)) (K.call (.int id) a) := by
  rw [Kernel.call, refusal?]
  cases Builtin.check (.int id) with
  | ok f => exact outcome_none_iff.2 (hK.apply f ha)
  | error fault => exact .refused fault

theorem outcome_terms {terms : List (Signed (Tree ν))}
    (h : ∀ t ∈ terms, Outcome P (t.item.postorder.findSome? (refusal? columns))
      (t.item.evaluate K columns)) :
    Outcome (fun values => ∀ s ∈ values, P s.item)
      ((postorderTerms terms).findSome? (refusal? columns)) (evaluateTerms K columns terms) := by
  induction terms with
  | nil => exact .value fun s hs => absurd hs List.not_mem_nil
  | cons t terms ih =>
    have hrest := ih fun u hu => h u (List.mem_cons_of_mem _ hu)
    rw [postorderTerms, List.findSome?_append, evaluateTerms]
    refine (h t (List.mem_cons_self ..)).bind fun a ha => ?_
    exact hrest.map fun values hvalues => List.forall_mem_cons.2 ⟨ha, hvalues⟩

/-- **A tree has a value, or the first refusal in postorder.** -/
theorem outcome_evaluate (hK : K.IsTotalOn P)
    (hcolumns : ∀ name column, columns name = some column → ∃ a, column = .ok a ∧ P a)
    (t : Tree ν) :
    Outcome P (t.postorder.findSome? (refusal? columns)) (t.evaluate K columns) := by
  induction t with
  | const value => exact .value (hK.number value)
  | var name stored =>
    show Outcome P ([var name stored].findSome? (refusal? columns)) (lookUp K columns name stored)
    rw [List.findSome?_singleton]
    exact outcome_lookUp hK hcolumns name stored
  | hole name => exact .value (hK.start .sum)
  | seq kind terms ih =>
    rw [postorder, List.findSome?_append]
    refine (outcome_terms ih).bind fun values hvalues => ?_
    exact outcome_none_iff.2 (hK.exists_combine kind hvalues)
  | pow base exponent ihb ihe =>
    rw [postorder, List.findSome?_append, List.findSome?_append]
    exact ihb.bind fun b hb => ihe.bind fun e he => outcome_none_iff.2 (hK.pow hb he)
  | fn id argument ih =>
    rw [postorder, List.findSome?_append, List.findSome?_singleton]
    exact ih.bind fun a ha => outcome_call hK id argument ha
  | foreign found => exact .refused _

/-! ## Built trees -/

/-- In a built tree only a variable can refuse, for lack of a value. -/
theorem eq_of_refusal? {u : Tree ν} (hu : u.Built) {fault : Fault}
    (h : refusal? columns u = some fault) :
    ∃ name : String, u = var (.text name) none ∧ columns name = none ∧
      fault = .unbound (.text name) := by
  cases u with
  | var name stored =>
    obtain ⟨text, rfl⟩ := hu.parts
    cases hcolumn : columns text with
    | some column => exact absurd h (by simp [refusal?, hcolumn])
    | none =>
      cases stored with
      | some value => exact absurd h (by simp [refusal?])
      | none =>
        have hfault : some (Fault.unbound (.text text)) = some fault := by
          simpa [refusal?, hcolumn] using h
        exact ⟨text, rfl, hcolumn, (Option.some.inj hfault).symm⟩
  | fn id argument =>
    obtain ⟨f, hf, _⟩ := hu.check
    exact absurd h (by simp [refusal?, hf])
  | foreign found => exact hu.parts.elim
  | _ => exact absurd h (by simp [refusal?])

/-- **A built tree has a value unless some variable lacks one.**  Then the refusal names such a
variable. -/
theorem evaluate_of_built (hK : K.IsTotalOn P)
    (hcolumns : ∀ name column, columns name = some column → ∃ a, column = .ok a ∧ P a)
    {t : Tree ν} (ht : t.Built) :
    ((∃ a, t.evaluate K columns = .ok a ∧ P a) ∧
        ∀ name : String, (.text name, none) ∈ t.variableLeaves → columns name ≠ none) ∨
      ∃ name : String, (.text name, none) ∈ t.variableLeaves ∧ columns name = none ∧
        t.evaluate K columns = .error (.unbound (.text name)) := by
  have h := outcome_evaluate hK hcolumns t
  cases hfirst : t.postorder.findSome? (refusal? columns) with
  | none =>
    rw [hfirst, outcome_none_iff] at h
    refine .inl ⟨h, fun name hleaf hcolumn => ?_⟩
    have hu := mem_postorder.2 (mem_variableLeaves.1 hleaf)
    have hnone : refusal? columns (var (.text name) none : Tree ν) = none :=
      List.findSome?_eq_none_iff.1 hfirst _ hu
    exact absurd hnone (by simp [refusal?, hcolumn])
  | some fault =>
    rw [hfirst, outcome_some_iff] at h
    obtain ⟨u, hu, hfault⟩ := List.exists_of_findSome?_eq_some hfirst
    have hu := mem_postorder.1 hu
    obtain ⟨name, rfl, hcolumn, rfl⟩ := eq_of_refusal? (ht.preorder hu) hfault
    exact .inr ⟨name, mem_variableLeaves.2 hu, hcolumn, h⟩

end Outcomes

end Tree

end Isolate
