import Isolate.Proofs.Tree.Level
import Mathlib.Order.Bounds.Defs

/-!
# Depth

The depth of a tree is the number of nodes on its longest branch, a way down from the root to a node
without children.  It is found by recursion, or by a loop over a stack whose entries are nodes with
their distances from the root.  What the loop will answer is at any time the greatest of three
things: the distances seen, those on the stack, and those of the nodes below the stack.  Stated as
an upper bound (`drainStack_le_iff`), this needs no arithmetic with maxima: a bound passes from a
node to its children, and it does not matter in which order they were pushed.

* `branchLengths` - how many nodes the branches of a tree have;
* `isGreatest_branchLengths` - the depth is the greatest of these numbers;
* `stackDepth_eq_depth` - the stack finds the depth;
* `depths_agree` - **the loop and the recursion answer alike**.
-/

namespace Isolate.Tree

variable {ν : Type} {t : Tree ν}

/-! ## Branches -/

/-- The numbers of nodes on the ways down from the root to a node without children. -/
def branchLengths (t : Tree ν) : Set Nat :=
  {n | ∃ path leaf, t.subtree? path = some leaf ∧ leaf.children = [] ∧ n = path.length + 1}

theorem foldr_max_le_iff {depths : List Nat} {n : Nat} :
    depths.foldr max 0 ≤ n ↔ ∀ d ∈ depths, d ≤ n := by
  induction depths with
  | nil => simp
  | cons d depths ih => rw [List.foldr_cons, Nat.max_le, ih, List.forall_mem_cons]

/-- A bound on the depth of a tree is one more than a bound on the depths of its children. -/
theorem depth_le_succ_iff {n : Nat} : t.depth ≤ n + 1 ↔ ∀ c ∈ t.children, c.depth ≤ n := by
  rw [depth_eq_children, Nat.add_comm, Nat.add_le_add_iff_right, foldr_max_le_iff,
    List.forall_mem_map]

/-- On the way down to a node there is room for what is below it. -/
theorem length_add_depth_le {path : List Nat} {u : Tree ν} (h : t.subtree? path = some u) :
    path.length + u.depth ≤ t.depth := by
  induction path generalizing t with
  | nil =>
    obtain rfl := Option.some.inj h
    simp
  | cons i path ih =>
    rw [subtree?] at h
    obtain ⟨c, hc, h⟩ := Option.bind_eq_some_iff.1 h
    have hlt := depth_lt_of_mem_children (List.mem_of_getElem? hc)
    have hle := ih h
    rw [List.length_cons]
    omega

/-- Some branch has as many nodes as the tree is deep: it goes down to a deepest child, and on from
there. -/
theorem depth_mem_branchLengths (t : Tree ν) : t.depth ∈ t.branchLengths := by
  induction t using induction_children with
  | node t ih =>
    by_cases hleaf : t.children = []
    · have hdepth : t.depth = 1 := by rw [depth_eq_children, hleaf]; rfl
      exact ⟨[], t, rfl, hleaf, hdepth⟩
    · obtain ⟨n, hn⟩ := Nat.exists_eq_add_of_lt t.depth_pos
      have hdeepest : ∃ c ∈ t.children, c.depth = n := by
        -- otherwise every child would leave the tree less deep than it is
        by_contra hnone
        obtain ⟨c, hc⟩ := List.exists_mem_of_ne_nil _ hleaf
        have hless : ∀ c ∈ t.children, c.depth ≤ n - 1 := by
          intro c hc
          have hlt := depth_lt_of_mem_children hc
          have hne : c.depth ≠ n := fun h => hnone ⟨c, hc, h⟩
          omega
        have hle := depth_le_succ_iff.2 hless
        have hpos := c.depth_pos
        have hlt := hless c hc
        omega
      obtain ⟨c, hc, hdepth⟩ := hdeepest
      obtain ⟨path, leaf, hpath, hend, hlength⟩ := ih c hc
      obtain ⟨i, hi⟩ := List.mem_iff_getElem?.1 hc
      refine ⟨i :: path, leaf, ?_, hend, ?_⟩
      · rw [subtree?, hi, Option.bind_some, hpath]
      · rw [List.length_cons]
        omega

/-- **The depth is the length of the longest branch.** -/
theorem isGreatest_branchLengths (t : Tree ν) : IsGreatest t.branchLengths t.depth := by
  refine ⟨t.depth_mem_branchLengths, ?_⟩
  rintro _ ⟨path, leaf, hpath, -, rfl⟩
  have hle := length_add_depth_le hpath
  have hpos := leaf.depth_pos
  omega

/-! ## The stack -/

/-- **What the stack will answer.**  It is the greatest distance seen, on the stack, or below a node
of the stack. -/
theorem drainStack_le_iff {stack : List (Tree ν × Nat)} {deepest n : Nat} :
    drainStack stack deepest ≤ n ↔
      deepest ≤ n ∧ ∀ entry ∈ stack, entry.2 + entry.1.depth ≤ n + 1 := by
  induction stack, deepest using drainStack.induct with
  | case1 deepest => simp [drainStack]
  | case2 t distance rest deepest ih =>
    have hpos := t.depth_pos
    -- a node and its children are bounded together
    have hnode : (distance ≤ n ∧ ∀ c ∈ t.children, distance + 1 + c.depth ≤ n + 1) ↔
        distance + t.depth ≤ n + 1 := by
      constructor
      · rintro ⟨hdistance, hchildren⟩
        have hdepth : t.depth ≤ n - distance + 1 := by
          refine depth_le_succ_iff.2 fun c hc => ?_
          have := hchildren c hc
          omega
        omega
      · intro h
        refine ⟨by omega, fun c hc => ?_⟩
        have := depth_lt_of_mem_children hc
        omega
    rw [drainStack, ih, List.forall_mem_append, List.forall_mem_cons, Nat.max_le, ← hnode]
    simp only [List.mem_reverse, List.forall_mem_map]
    tauto

/-- **The stack finds the depth.** -/
theorem stackDepth_eq_depth (t : Tree ν) : t.stackDepth = t.depth := by
  have hbounds : ∀ n, t.stackDepth ≤ n ↔ t.depth ≤ n := by
    intro n
    rw [stackDepth, drainStack_le_iff, List.forall_mem_singleton, Nat.add_comm,
      Nat.add_le_add_iff_right]
    exact and_iff_right (Nat.zero_le n)
  exact Nat.le_antisymm ((hbounds _).2 (Nat.le_refl _)) ((hbounds _).1 (Nat.le_refl _))

/-! ## Asking -/

/-- The stack comes to every node, so a plain value anywhere below it is refused. -/
theorem nodesOnly_of_askStack {stack : List (Tree ν × Nat)} {deepest n : Nat}
    (h : askStack stack deepest = .ok n) : ∀ entry ∈ stack, entry.1.NodesOnly := by
  induction stack, deepest using drainStack.induct with
  | case1 deepest => exact fun _ hentry => absurd hentry List.not_mem_nil
  | case2 t distance rest deepest ih =>
    rw [askStack, bind_eq_ok_iff] at h
    obtain ⟨node, hnode, h⟩ := h
    obtain ⟨hchildren, hrest⟩ := List.forall_mem_append.1 (ih h)
    refine List.forall_mem_cons.2 ⟨nodesOnly_of_children ?_ fun c hc => ?_, hrest⟩
    · rintro found rfl
      exact absurd hnode (by simp [checked])
    · exact hchildren (c, distance + 1) (List.mem_reverse.2 (List.mem_map_of_mem hc))

theorem askStackDepth_eq_ok_iff {n : Nat} :
    t.askStackDepth = .ok n ↔ t.NodesOnly ∧ n = t.depth := by
  constructor
  · intro h
    have ht : t.NodesOnly := nodesOnly_of_askStack h (t, 1) (List.mem_singleton_self _)
    rw [askStackDepth_eq_ok ht, stackDepth_eq_depth] at h
    exact ⟨ht, (Except.ok.inj h).symm⟩
  · rintro ⟨ht, rfl⟩
    rw [askStackDepth_eq_ok ht, stackDepth_eq_depth]

theorem askDepth_eq_ok_iff {n : Nat} : t.askDepth = .ok n ↔ t.NodesOnly ∧ n = t.depth := by
  constructor
  · intro h
    have ht : t.NodesOnly := fun found hfound => ask_ne_ok hfound n h
    rw [askDepth_eq_ok ht] at h
    exact ⟨ht, (Except.ok.inj h).symm⟩
  · rintro ⟨ht, rfl⟩
    exact askDepth_eq_ok ht

/-- **The loop and the recursion answer alike.**  There is a longest branch in every tree; the stack
finds its length and so does the recursion.  Where nodes are asked, both answer with this length
exactly for the trees without plain values. -/
theorem depths_agree (t : Tree ν) :
    ∃ depth, IsGreatest t.branchLengths depth ∧ t.stackDepth = depth ∧ t.depth = depth ∧
      (∀ n, t.askStackDepth = .ok n ↔ t.NodesOnly ∧ n = depth) ∧
      ∀ n, t.askDepth = .ok n ↔ t.NodesOnly ∧ n = depth :=
  ⟨t.depth, t.isGreatest_branchLengths, t.stackDepth_eq_depth, rfl,
    fun _ => askStackDepth_eq_ok_iff, fun _ => askDepth_eq_ok_iff⟩

end Isolate.Tree
