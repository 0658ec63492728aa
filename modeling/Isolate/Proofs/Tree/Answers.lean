import Isolate.Proofs.Rendering.Built
import Isolate.Proofs.Tree.Ask
import Isolate.Proofs.Tree.Assign
import Isolate.Proofs.Tree.Constant
import Isolate.Proofs.Tree.Names
import Isolate.Proofs.Tree.Valid

/-!
# What a valid tree answers

Whoever is handed a tree from outside can check it once, and then ask it anything: nothing that is
asked of a valid tree is refused (`answers_of_isValid`).  All of this rests on a valid tree being
built; only the names take more, which are not empty.
-/

namespace Isolate

namespace Tree

/-! ## Valid parts -/

/-- The variables of a valid tree are named by texts that are not empty. -/
theorem exists_of_mem_occurrences {t : Tree Float} (h : t.isValid = true) {name : Name}
    (hname : name ∈ t.occurrences) : ∃ text, text ≠ "" ∧ name = .text text := by
  rw [t.occurrences_perm.mem_iff, List.mem_filterMap] at hname
  obtain ⟨u, hu, hname⟩ := hname
  cases u with
  | var n stored =>
    obtain rfl := Option.some.inj hname
    exact exists_of_isProper (isValid_iff.1 h _ hu)
  | _ => exact absurd hname (by simp [variableName?])

theorem ownDefect?_withValue (name : String) (x : Float) (t : Tree Float) :
    (t.withValue name x).ownDefect? = t.ownDefect? := by
  cases t with
  | seq kind terms => simp [ownDefect?]
  | _ => rfl

/-- Storing a number keeps a tree valid. -/
theorem isValid_withValue {t : Tree Float} (h : t.isValid = true) (name : String) (x : Float) :
    (t.withValue name x).isValid = true := by
  rw [isValid_iff, preorder_withValue, List.forall_mem_map]
  intro u hu
  rw [ownDefect?_withValue]
  exact isValid_iff.1 h u hu

/-! ## Texts and visitors -/

/-- All nodes of a built tree can be written. -/
theorem exists_askTexts {t : Tree Float} (ht : t.Built) : ∃ texts, t.askTexts = .ok texts := by
  rw [askTexts, askNodes_eq_ok ht.nodesOnly, ok_bind]
  refine exists_mapM fun u hu => ?_
  obtain ⟨s, hs⟩ := exists_text (ht.preorder hu)
  exact ⟨.text s, written_of_text hs⟩

/-- What works on every node of a tree can be made of the nodes of any class. -/
theorem NodesOnly.exists_askEach {ν γ : Type} {t : Tree ν} (ht : t.NodesOnly)
    {f : Tree ν → Except Fault γ} (h : ∀ node ∈ t.preorder, ∃ c, f node = .ok c) (s : Selector) :
    ∃ each, t.askEach f s = .ok each := by
  rw [askEach, askNodesOf_eq_ok_iff.2 ⟨ht, rfl⟩, ok_bind]
  refine exists_mapM fun node hnode => h node ?_
  exact t.breadthFirst_perm.mem_iff.1 (List.mem_of_mem_filter hnode)

/-- A built tree has a description. -/
theorem exists_described {t : Tree Float} (ht : t.Built) : ∃ s, t.described = .ok s := by
  obtain ⟨s, hs⟩ := exists_text ht
  rw [described, written_of_text hs, ok_bind]
  exact ⟨_, rfl⟩

/-- A visitor that refuses none of the nodes gets through. -/
theorem NodesOnly.exists_acceptAll {ν σ : Type} {t : Tree ν} (ht : t.NodesOnly)
    {visitor : Visitor ν σ}
    (h : ∀ kind, ∀ node ∈ t.preorder, ∀ s, ∃ s', visitor kind node s = .ok s') (s : σ) :
    ∃ s', t.acceptAll visitor s = .ok s' := by
  rw [acceptAll_eq]
  refine exists_foldlM (fun node hnode s => ?_) s
  obtain ⟨kind, hkind⟩ := ht.exists_kind? hnode
  rw [accept_of_kind? hkind]
  exact h kind node hnode s

/-! ## Answers -/

/-- Nothing that is asked of a tree is refused. -/
structure Answers (t : Tree Float) : Prop where
  text : ∃ s, t.text = .ok s
  latex : ∃ s, t.latex = .ok s
  described : ∃ s, t.described = .ok s
  /-- A copy is the same tree. -/
  clone : t.clone = .ok t
  depth : t.askDepth = .ok t.depth
  stackDepth : t.askStackDepth = .ok t.stackDepth
  count : t.askCount = .ok t.count
  nodes : ∀ order, t.askNodes order = .ok (t.nodes order)
  /-- The nodes of any class can be listed, the variables and the constants among them. -/
  nodesOf : ∀ selector, t.askNodesOf selector = .ok (t.nodesOf selector)
  variableNodes : t.askVariables = .ok (t.nodesOf (.kind .var))
  constants : t.askConstants = .ok (t.nodesOf (.kind .const))
  /-- A function can be applied to the nodes of any class, unless it refuses a node itself. -/
  each : ∀ {γ : Type} (f : Tree Float → Except Fault γ),
    (∀ node ∈ t.preorder, ∃ c, f node = .ok c) → ∀ selector, ∃ cs, t.askEach f selector = .ok cs
  /-- All nodes can be written. -/
  texts : ∃ texts, t.askTexts = .ok texts
  /-- A visitor gets through, unless it refuses a node itself. -/
  visitor : ∀ {σ : Type} (visitor : Visitor Float σ),
    (∀ kind, ∀ node ∈ t.preorder, ∀ s, ∃ s', visitor kind node s = .ok s') →
      ∀ s, ∃ s', t.acceptAll visitor s = .ok s'
  /-- The names of the variables can be gathered, counted and sorted. -/
  names : ∀ name ∈ t.occurrences, ∃ text, text ≠ "" ∧ name = .text text
  gatheredNames : t.gatheredNames = .ok t.variableNames
  nameCounts : t.nameCounts = .ok t.usage
  orderedNames : t.orderedNames = .ok (t.freeVariables.map .text)
  constant : ∀ listing, t.isConstantOver listing = .ok (t.evaluatesConstant listing.holds)
  /-- Numbers can be assigned. -/
  assign : ∀ name x, ∃ u, t.assign name (.ok x) = (u, none) ∧ u.isValid = true

/-- **A valid tree answers.** -/
theorem answers_of_isValid {t : Tree Float} (h : t.isValid = true) : t.Answers := by
  have ht : t.Built := built_of_isValid h
  exact {
    text := exists_text ht
    latex := exists_latex ht
    described := exists_described ht
    clone := clone_of_built ht
    depth := askDepth_eq_ok ht.nodesOnly
    stackDepth := askStackDepth_eq_ok ht.nodesOnly
    count := askCount_eq_ok ht.nodesOnly
    nodes := askNodes_eq_ok ht.nodesOnly
    nodesOf := fun _ => askNodesOf_eq_ok_iff.2 ⟨ht.nodesOnly, rfl⟩
    variableNodes := askVariables_eq_ok_iff.2 ⟨ht.nodesOnly, rfl⟩
    constants := askNodesOf_eq_ok_iff.2 ⟨ht.nodesOnly, rfl⟩
    each := fun _ => ht.nodesOnly.exists_askEach
    texts := exists_askTexts ht
    visitor := fun _ => ht.nodesOnly.exists_acceptAll
    names := fun _ => exists_of_mem_occurrences h
    gatheredNames := ht.gatheredNames
    nameCounts := ht.nameCounts
    orderedNames := ht.orderedNames
    constant := isConstantOver_eq_ok ht
    assign := fun name x => ⟨_, assign_ok ht name x, isValid_withValue h name x⟩ }

end Tree

end Isolate
