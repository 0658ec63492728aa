import Isolate.Proofs.Tree.Built
import Isolate.Tree.Binding
import Isolate.Tree.Query
import Mathlib.Data.List.Basic
import Mathlib.Data.List.Perm.Basic

/-!
# Walks and what they count

Both orders list the same nodes (`breadthFirst_perm`), so what is counted over a walk does not
depend on the order of the walk, and a tally, read as a map, does not depend on the order of what is
tallied (`lookup_tally`).
-/

namespace Isolate

namespace Tree

variable {ν : Type}

theorem depthTerms_eq (terms : List (Signed (Tree ν))) :
    depthTerms terms = (terms.map (·.item.depth)).foldr max 0 := by
  induction terms with
  | nil => rfl
  | cons t terms ih => rw [depthTerms, ih, List.map_cons, List.foldr_cons]

/-- A tree is one deeper than the deepest of its children. -/
theorem depth_eq_children (t : Tree ν) : t.depth = 1 + (t.children.map depth).foldr max 0 := by
  cases t with
  | seq kind terms => rw [depth, depthTerms_eq, children, List.map_map]; rfl
  | _ => simp [depth, children]

/-! ## Walks -/

/-- A queue gives rise to the nodes of its trees. -/
theorem drainQueue_perm (queue : List (Tree ν)) :
    (drainQueue queue).Perm (queue.flatMap preorder) := by
  induction queue using drainQueue.induct with
  | case1 => simp [drainQueue]
  | case2 t rest ih =>
    rw [drainQueue, List.flatMap_cons, preorder_eq t, List.cons_append]
    refine .cons t (ih.trans ?_)
    rw [List.flatMap_append]
    exact List.perm_append_comm

/-- **Both orders list the same nodes.** -/
theorem breadthFirst_perm (t : Tree ν) : t.breadthFirst.Perm t.preorder := by
  simpa [breadthFirst] using drainQueue_perm [t]

theorem preorder_subset_of_child {t c : Tree ν} (h : c ∈ t.children) :
    c.preorder ⊆ t.preorder := by
  intro u hu
  rw [preorder_eq]
  exact List.mem_cons_of_mem _ (List.mem_flatMap_of_mem h hu)

/-- Every node of a built tree is built. -/
theorem Built.preorder {t : Tree ν} (ht : t.Built) {u : Tree ν} (hu : u ∈ t.preorder) :
    u.Built := by
  induction t using induction_children with
  | node t ih =>
    rw [preorder_eq] at hu
    rcases List.mem_cons.1 hu with rfl | hu
    · exact ht
    · obtain ⟨c, hc, hu⟩ := List.mem_flatMap.1 hu
      exact ih c hc (ht.children hc) hu

/-- The variable leaves are the variables among the nodes. -/
theorem mem_variableLeaves {t : Tree ν} {leaf : Name × Option ν} :
    leaf ∈ t.variableLeaves ↔ var leaf.1 leaf.2 ∈ t.preorder := by
  rw [variableLeaves, List.mem_filterMap]
  constructor
  · rintro ⟨u, hu, hleaf⟩
    cases u with
    | var name stored =>
      obtain rfl := Option.some.inj hleaf
      exact hu
    | _ => exact absurd hleaf (by simp)
  · intro h
    exact ⟨_, h, rfl⟩

theorem map_fst_variableLeaves (t : Tree ν) :
    t.variableLeaves.map Prod.fst = t.preorder.filterMap variableName? := by
  rw [variableLeaves, List.map_filterMap]
  refine List.filterMap_congr fun u _ => ?_
  cases u <;> rfl

theorem occurrences_perm (t : Tree ν) :
    t.occurrences.Perm (t.preorder.filterMap variableName?) :=
  t.breadthFirst_perm.filterMap _

theorem mem_variableNames {t : Tree ν} {name : Name} :
    name ∈ t.variableNames ↔ name ∈ t.preorder.filterMap variableName? :=
  List.mem_eraseDups

end Tree

/-- A tally gives every item the number of its occurrences, and nothing to anything else. -/
theorem lookup_tally {α : Type} [BEq α] [LawfulBEq α] (items : List α) (a : α) :
    (tally items).lookup a = if items.contains a then some (items.count a) else none := by
  by_cases h : a ∈ items
  · rw [if_pos (by simpa using h), tally]
    exact List.lookup_graph items.count (List.mem_eraseDups.2 h)
  · rw [if_neg (by simpa using h), List.lookup_eq_none_iff]
    intro entry hentry
    obtain ⟨b, hb, rfl⟩ := List.mem_map.1 hentry
    have hne : a ≠ b := by
      rintro rfl
      exact h (List.mem_eraseDups.1 hb)
    simpa using hne

/-- The order of the items does not matter. -/
theorem lookup_tally_perm {α : Type} [BEq α] [LawfulBEq α] {items others : List α}
    (h : items.Perm others) (a : α) : (tally items).lookup a = (tally others).lookup a := by
  rw [lookup_tally, lookup_tally, h.count_eq, h.contains_eq]

end Isolate
