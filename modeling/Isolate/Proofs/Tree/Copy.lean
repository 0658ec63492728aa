import Isolate.Proofs.Evaluation.Refusal
import Isolate.Proofs.Tree.Ask

/-!
# Copies

A copy is rebuilt from its leaves by operations that check what they are given.  So a node stands in
the way of a copy if it is a plain value, or the application of a function that cannot be evaluated.
A node is rebuilt after its children, and they from left to right: a tree is copied exactly, or the
copy is refused with the first such node in postorder.

* `outcome_clone` - that, for every tree;
* `FirstUnsupported` - the fault of the first function among some nodes that cannot be evaluated;
* `clone_exact` - **a tree of nodes is copied exactly, unless some function cannot be evaluated**;
* `Recoded`, `built_iff_recoded` - built trees but for the codes of their functions.
-/

namespace Isolate.Tree

variable {ν : Type}

/-- What a node by itself refuses when it is copied. -/
def uncopied? : Tree ν → Option Fault
  | fn id _ =>
    match Builtin.check (.int id) with
    | .ok _ => none
    | .error fault => some fault
  | foreign found => some (.notNode found)
  | _ => none

/-- A copy is the same tree, which is no plain value. -/
def IsCopy (t u : Tree ν) : Prop := u = t ∧ t.checked = .ok t

theorem outcome_cloneTerms {terms : List (Signed (Tree ν))}
    (h : ∀ t ∈ terms, Outcome (IsCopy t.item) (t.item.postorder.findSome? uncopied?)
      t.item.clone) :
    Outcome (fun copies => copies = terms ∧ ∀ t ∈ terms, t.item.checked = .ok t.item)
      ((postorderTerms terms).findSome? uncopied?) (cloneTerms terms) := by
  induction terms with
  | nil => exact .value ⟨rfl, List.forall_mem_nil _⟩
  | cons t terms ih =>
    have hrest := ih fun u hu => h u (List.mem_cons_of_mem _ hu)
    rw [postorderTerms, List.findSome?_append, cloneTerms]
    refine (h t (List.mem_cons_self ..)).bind fun item hitem => ?_
    refine hrest.map fun copies hcopies => ?_
    rw [hitem.1, hcopies.1]
    exact ⟨rfl, List.forall_mem_cons.2 ⟨hitem.2, hcopies.2⟩⟩

/-- **A tree is copied exactly, or with the first refusal in postorder not at all.** -/
theorem outcome_clone (t : Tree ν) :
    Outcome (IsCopy t) (t.postorder.findSome? uncopied?) t.clone := by
  induction t with
  | const value => exact .value ⟨rfl, rfl⟩
  | var name stored => exact .value ⟨rfl, rfl⟩
  | hole name => exact .value ⟨rfl, rfl⟩
  | seq kind terms ih =>
    rw [postorder, List.findSome?_append, clone]
    refine (outcome_cloneTerms ih).bind fun copies hcopies => ?_
    rw [hcopies.1]
    exact outcome_none_iff.2 ⟨_, ofTerms_of_checked hcopies.2, rfl, rfl⟩
  | pow base exponent ihb ihe =>
    rw [postorder, List.findSome?_append, List.findSome?_append, clone]
    refine ihb.bind fun b hb => ihe.bind fun e he => outcome_none_iff.2 ⟨_, ?_, rfl, rfl⟩
    rw [hb.1, he.1, power, hb.2, ok_bind, he.2, ok_bind]
  | fn id argument ih =>
    rw [postorder, List.findSome?_append, List.findSome?_singleton, clone]
    refine ih.bind fun a ha => ?_
    rw [ha.1, apply, uncopied?]
    cases hcheck : Builtin.check (.int id) with
    | error fault => exact .refused fault
    | ok f =>
      obtain ⟨rfl, -⟩ := Builtin.check_eq_ok_iff.1 hcheck
      rw [ok_bind, ha.2, ok_bind]
      exact .value ⟨rfl, rfl⟩
  | foreign found => exact .refused _

/-! ## Functions that cannot be evaluated -/

/-- A node applies a function that cannot be evaluated, and the fault that says so. -/
inductive Unsupported : Tree ν → Fault → Prop
  | fn {id : Int} {fault : Fault} (argument : Tree ν) :
      Builtin.Unsupported id fault → Unsupported (fn id argument) fault

/-- The first of some nodes that applies a function that cannot be evaluated has a fault. -/
def FirstUnsupported (nodes : List (Tree ν)) (fault : Fault) : Prop :=
  ∃ before u after, nodes = before ++ u :: after ∧ u.Unsupported fault ∧
    ∀ v ∈ before, ∀ other, ¬ v.Unsupported other

theorem uncopied?_eq_some_iff {u : Tree ν} (hu : ∀ found, u ≠ foreign found) {fault : Fault} :
    u.uncopied? = some fault ↔ u.Unsupported fault := by
  cases u with
  | fn id argument =>
    have hcheck : (fn id argument).uncopied? = some fault ↔ Builtin.Unsupported id fault := by
      rw [← Builtin.check_eq_error_iff, uncopied?]
      cases Builtin.check (.int id) <;> simp
    rw [hcheck]
    exact ⟨.fn argument, fun ⟨_, h⟩ => h⟩
  | foreign found => exact absurd rfl (hu found)
  | _ =>
    -- these refuse nothing
    constructor
    · intro h
      exact absurd h (by simp [uncopied?])
    · intro h
      cases h

/-- What some nodes refuse is the faults of those functions. -/
theorem uncopied?_of_nodes {nodes : List (Tree ν)} (h : ∀ found, foreign found ∉ nodes) :
    ∀ u ∈ nodes, ∀ fault, u.uncopied? = some fault ↔ u.Unsupported fault :=
  fun _ hu _ => uncopied?_eq_some_iff fun found heq => h found (heq ▸ hu)

/-- A function can be evaluated exactly if nothing says that it cannot. -/
theorem hasRule_iff_supported {id : Int} {argument : Tree ν} :
    (∃ f : Builtin, f.code = id ∧ f.hasRule = true) ↔
      ∀ fault, ¬ (fn id argument).Unsupported fault := by
  constructor
  · rintro ⟨f, hf⟩ fault ⟨_, hfault⟩
    rw [← Builtin.check_eq_error_iff, Builtin.check_eq_ok_iff.2 hf] at hfault
    exact absurd hfault (by simp)
  · intro h
    cases hcheck : Builtin.check (.int id) with
    | ok f => exact ⟨f, Builtin.check_eq_ok_iff.1 hcheck⟩
    | error fault => exact absurd (.fn argument (Builtin.check_eq_error_iff.1 hcheck)) (h fault)

/-! ## Copies of trees of nodes -/

theorem NodesOnly.postorder {t : Tree ν} (ht : t.NodesOnly) :
    ∀ found, foreign found ∉ t.postorder :=
  fun found hfound => ht found (mem_postorder.1 hfound)

theorem clone_eq_error_iff {t : Tree ν} (ht : t.NodesOnly) {fault : Fault} :
    t.clone = .error fault ↔ FirstUnsupported t.postorder fault := by
  rw [t.outcome_clone.eq_error_iff]
  exact findSome?_eq_some_iff_first (uncopied?_of_nodes ht.postorder)

theorem exists_clone_iff {t : Tree ν} (ht : t.NodesOnly) :
    (∃ u, t.clone = .ok u) ↔ ∀ u ∈ t.preorder, ∀ fault, ¬ u.Unsupported fault := by
  rw [t.outcome_clone.exists_ok_iff,
    findSome?_eq_none_iff_forall (uncopied?_of_nodes ht.postorder)]
  simp only [mem_postorder]

theorem eq_of_clone {t u : Tree ν} (h : t.clone = .ok u) : u = t :=
  (t.outcome_clone.of_eq_ok h).1

/-- **A tree of nodes is copied exactly, unless some function cannot be evaluated**, and then the
copy is refused with the fault of the first such function in postorder. -/
theorem clone_exact {t : Tree ν} (ht : t.NodesOnly) :
    ((∃ u, t.clone = .ok u) ↔ ∀ id argument, fn id argument ∈ t.preorder →
        ∃ f : Builtin, f.code = id ∧ f.hasRule = true) ∧
      (∀ u, t.clone = .ok u → u = t) ∧
      ∀ fault, t.clone = .error fault ↔ FirstUnsupported t.postorder fault := by
  refine ⟨?_, fun u => eq_of_clone, fun fault => clone_eq_error_iff ht⟩
  rw [exists_clone_iff ht]
  constructor
  · intro h id argument hmem
    exact hasRule_iff_supported.2 (h _ hmem)
  · rintro h _ hmem fault ⟨argument, hfault⟩
    exact hasRule_iff_supported.1 (h _ argument hmem) fault (.fn argument hfault)

/-! ## Other codes -/

/-- The trees that the constructors build, but for the codes of the functions: those may be any
numbers. -/
inductive Recoded : Tree ν → Prop
  | const (value : ν) : Recoded (const value)
  | var (name : String) (stored : Option ν) : Recoded (var (.text name) stored)
  | hole (name : String) : Recoded (hole (.text name))
  | seq {kind : SeqKind} {terms : List (Signed (Tree ν))} :
      (∀ t ∈ terms, Recoded t.item) → Recoded (seq kind terms)
  | pow {base exponent : Tree ν} : Recoded base → Recoded exponent → Recoded (pow base exponent)
  | fn (id : Int) {argument : Tree ν} : Recoded argument → Recoded (fn id argument)

theorem Recoded.children {t : Tree ν} (h : t.Recoded) : ∀ c ∈ t.children, c.Recoded := by
  cases h with
  | seq hterms => exact List.forall_mem_map.2 hterms
  | pow hb he => exact List.forall_mem_cons.2 ⟨hb, List.forall_mem_singleton.2 he⟩
  | fn id ha => exact List.forall_mem_singleton.2 ha
  | _ => exact List.forall_mem_nil _

theorem Recoded.nodesOnly {t : Tree ν} (h : t.Recoded) : t.NodesOnly := by
  induction t using induction_children with
  | node t ih =>
    refine nodesOnly_of_children ?_ fun c hc => ih c hc (h.children c hc)
    rintro found rfl
    cases h

theorem Built.recoded {t : Tree ν} (h : t.Built) : t.Recoded := by
  induction t with
  | const value => exact .const value
  | var name stored =>
    obtain ⟨text, rfl⟩ := h.parts
    exact .var text stored
  | hole name =>
    obtain ⟨text, rfl⟩ := h.parts
    exact .hole text
  | seq kind terms ih => exact .seq fun t ht => ih t ht (h.term ht)
  | pow base exponent ihb ihe => exact .pow (ihb h.base) (ihe h.exponent)
  | fn id argument ih => exact .fn id (ih h.argument)
  | foreign found => exact h.parts.elim

/-- **The built trees are those among them in which every function can be evaluated.** -/
theorem built_iff_recoded {t : Tree ν} :
    t.Built ↔ t.Recoded ∧ ∀ u ∈ t.preorder, ∀ fault, ¬ u.Unsupported fault := by
  constructor
  · intro h
    refine ⟨h.recoded, fun u hu fault hfault => ?_⟩
    have hbuilt : u.Built := h.preorder hu
    obtain ⟨argument, hid⟩ := hfault
    obtain ⟨⟨f, hrule, hcode⟩, -⟩ := hbuilt.parts
    exact hasRule_iff_supported.1 ⟨f, hcode, hrule⟩ fault (.fn argument hid)
  · rintro ⟨h, hsupported⟩
    induction t using induction_children with
    | node t ih =>
      have hparts : ∀ c ∈ t.children, c.Built := fun c hc =>
        ih c hc (h.children c hc) fun u hu => hsupported u (preorder_subset_of_child hc hu)
      cases h with
      | const value => exact .const value
      | var name stored => exact .var name stored
      | hole name => exact .hole name
      | seq => exact built_seq (List.forall_mem_map.1 hparts)
      | pow =>
        obtain ⟨hbase, hexponent⟩ := List.forall_mem_cons.1 hparts
        exact built_pow hbase (List.forall_mem_singleton.1 hexponent)
      | fn id =>
        obtain ⟨f, rfl, hrule⟩ := hasRule_iff_supported.2 (hsupported _ List.mem_cons_self)
        exact built_fn hrule (List.forall_mem_singleton.1 hparts)

theorem Recoded.built_of_findSome? {t : Tree ν} (h : t.Recoded)
    (hnone : t.postorder.findSome? uncopied? = none) : t.Built := by
  rw [findSome?_eq_none_iff_forall (uncopied?_of_nodes h.nodesOnly.postorder)] at hnone
  exact built_iff_recoded.2 ⟨h, fun u hu => hnone u (mem_postorder.2 hu)⟩

end Isolate.Tree
