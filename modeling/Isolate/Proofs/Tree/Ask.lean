import Isolate.Proofs.Tree.Walk
import Isolate.Tree.Ask

/-!
# A tree without plain values answers

Where no plain value stands in place of a node (`NodesOnly`), as in a built tree, every node answers
when it is asked, by recursion (`ask_eq_ok`) or by a loop (`askQueue_eq_ok`, `askStack_eq_ok`), and
the answer is the one that is worked out without asking.  A plain value anywhere in a tree leaves a
question unanswered (`ask_ne_ok`).
-/

namespace Isolate.Tree

variable {ν β : Type} {t : Tree ν}

/-! ## Trees of nodes -/

/-- No plain value stands in place of a node.  The nodes may be any, built or not. -/
def NodesOnly (t : Tree ν) : Prop := ∀ found, foreign found ∉ t.preorder

theorem Built.nodesOnly (ht : t.Built) : t.NodesOnly :=
  fun _ hfound => (ht.preorder hfound).parts.elim

theorem NodesOnly.children (ht : t.NodesOnly) {c : Tree ν} (hc : c ∈ t.children) :
    c.NodesOnly :=
  fun found hfound => ht found (preorder_subset_of_child hc hfound)

theorem nodesOnly_of_children (hroot : ∀ found, t ≠ foreign found)
    (h : ∀ c ∈ t.children, c.NodesOnly) : t.NodesOnly := by
  intro found hfound
  rw [preorder_eq] at hfound
  rcases List.mem_cons.1 hfound with hfound | hfound
  · exact hroot found hfound.symm
  · obtain ⟨c, hc, hfound⟩ := List.mem_flatMap.1 hfound
    exact h c hc found hfound

theorem NodesOnly.term {kind : SeqKind} {terms : List (Signed (Tree ν))}
    (h : (seq kind terms).NodesOnly) {t : Signed (Tree ν)} (ht : t ∈ terms) : t.item.NodesOnly :=
  h.children (List.mem_map_of_mem ht)

theorem NodesOnly.checked (ht : t.NodesOnly) : t.checked = .ok t := by
  cases t with
  | foreign found => exact absurd List.mem_cons_self (ht found)
  | _ => rfl

/-! ## By recursion -/

theorem askTerms_eq_ok {answer : Tree ν → List β → β} {g : Tree ν → β}
    {terms : List (Signed (Tree ν))} (h : ∀ t ∈ terms, t.item.ask answer = .ok (g t.item)) :
    askTerms answer terms = .ok (terms.map (g ·.item)) := by
  induction terms with
  | nil => rfl
  | cons t terms ih =>
    have ht : ask answer t.item = .ok (g t.item) := h t (List.mem_cons_self ..)
    have hrest := ih fun u hu => h u (List.mem_cons_of_mem _ hu)
    rw [askTerms, ht, ok_bind, hrest, ok_bind, List.map_cons]

/-- **A tree of nodes answers.**  What every node makes of what its children make is the answer. -/
theorem ask_eq_ok {answer : Tree ν → List β → β} {g : Tree ν → β}
    (hg : ∀ t, g t = answer t (t.children.map g)) (ht : t.NodesOnly) :
    t.ask answer = .ok (g t) := by
  induction t with
  | seq kind terms ih =>
    rw [ask, askTerms_eq_ok fun t h => ih t h (ht.term h), ok_bind, hg, children, List.map_map]
    rfl
  | pow base exponent ihb ihe =>
    have hb : base.NodesOnly := ht.children (List.mem_cons_self ..)
    have he : exponent.NodesOnly := ht.children (List.mem_cons_of_mem _ (List.mem_cons_self ..))
    rw [ask, ihb hb, ok_bind, ihe he, ok_bind, hg (pow base exponent)]
    rfl
  | fn id argument ih =>
    rw [ask, ih (ht.children (List.mem_cons_self ..)), ok_bind, hg (fn id argument)]
    rfl
  | foreign found => exact absurd List.mem_cons_self (ht found)
  | const value => exact congrArg Except.ok (hg (const value)).symm
  | var name stored => exact congrArg Except.ok (hg (var name stored)).symm
  | hole name => exact congrArg Except.ok (hg (hole name)).symm

theorem exists_of_askTerms {answer : Tree ν → List β → β} {terms : List (Signed (Tree ν))}
    {below : List β} (h : askTerms answer terms = .ok below) {t : Signed (Tree ν)}
    (ht : t ∈ terms) : ∃ b, t.item.ask answer = .ok b := by
  induction terms generalizing below with
  | nil => exact absurd ht List.not_mem_nil
  | cons u terms ih =>
    rw [askTerms, bind_eq_ok_iff] at h
    obtain ⟨first, hfirst, h⟩ := h
    rw [bind_eq_ok_iff] at h
    obtain ⟨others, hothers, _⟩ := h
    rcases List.mem_cons.1 ht with rfl | ht
    · exact ⟨first, hfirst⟩
    · exact ih hothers ht

/-- Whoever has an answer has one from every child. -/
theorem exists_ask_of_mem {answer : Tree ν → List β → β} {b : β} (h : t.ask answer = .ok b)
    {c : Tree ν} (hc : c ∈ t.children) : ∃ b, c.ask answer = .ok b := by
  cases t with
  | seq kind terms =>
    rw [ask, bind_eq_ok_iff] at h
    obtain ⟨below, hbelow, _⟩ := h
    obtain ⟨s, hs, rfl⟩ := List.mem_map.1 hc
    exact exists_of_askTerms hbelow hs
  | pow base exponent =>
    rw [ask, bind_eq_ok_iff] at h
    obtain ⟨x, hx, h⟩ := h
    rw [bind_eq_ok_iff] at h
    obtain ⟨y, hy, _⟩ := h
    rcases List.mem_cons.1 hc with rfl | hc
    · exact ⟨x, hx⟩
    · obtain rfl := List.mem_singleton.1 hc
      exact ⟨y, hy⟩
  | fn id argument =>
    rw [ask, bind_eq_ok_iff] at h
    obtain ⟨x, hx, _⟩ := h
    obtain rfl := List.mem_singleton.1 hc
    exact ⟨x, hx⟩
  | _ => exact absurd hc List.not_mem_nil

/-- **A plain value leaves a question unanswered**, wherever it is. -/
theorem ask_ne_ok {answer : Tree ν → List β → β} {d : Datum} (hd : foreign d ∈ t.preorder) (b : β) :
    t.ask answer ≠ .ok b := by
  intro h
  induction t using induction_children generalizing b with
  | node t ih =>
    rw [preorder_eq] at hd
    rcases List.mem_cons.1 hd with rfl | hd
    · exact absurd h (by simp [ask])
    · obtain ⟨c, hc, hd⟩ := List.mem_flatMap.1 hd
      obtain ⟨b', hb'⟩ := exists_ask_of_mem h hc
      exact ih c hc hd b' hb'

theorem askDepth_eq_ok (ht : t.NodesOnly) : t.askDepth = .ok t.depth :=
  ask_eq_ok depth_eq_children ht

theorem askCount_eq_ok (ht : t.NodesOnly) : t.askCount = .ok t.count :=
  ask_eq_ok count_eq_children ht

theorem askPreorder_eq_ok (ht : t.NodesOnly) : t.askPreorder = .ok t.preorder :=
  ask_eq_ok (fun t => by rw [preorder_eq, List.flatMap_def]) ht

/-! ## By loops -/

theorem askQueue_eq_ok {queue : List (Tree ν)} (h : ∀ t ∈ queue, t.NodesOnly) :
    askQueue queue = .ok (drainQueue queue) := by
  induction queue using drainQueue.induct with
  | case1 => rw [askQueue, drainQueue]
  | case2 t rest ih =>
    have ht : t.NodesOnly := h t (List.mem_cons_self ..)
    have hnext : ∀ u ∈ rest ++ t.children, u.NodesOnly := by
      intro u hu
      rcases List.mem_append.1 hu with hu | hu
      · exact h u (List.mem_cons_of_mem _ hu)
      · exact ht.children hu
    rw [askQueue, ht.checked, ok_bind, ih hnext, ok_bind, drainQueue]

/-- The nodes of a tree are listed in every order. -/
theorem askNodes_eq_ok (ht : t.NodesOnly) (order : Order) :
    t.askNodes order = .ok (t.nodes order) := by
  cases order with
  | breadthFirst => exact askQueue_eq_ok fun u hu => List.mem_singleton.1 hu ▸ ht
  | depthFirst => exact askPreorder_eq_ok ht

theorem askStack_eq_ok {stack : List (Tree ν × Nat)} (h : ∀ entry ∈ stack, entry.1.NodesOnly)
    (deepest : Nat) : askStack stack deepest = .ok (drainStack stack deepest) := by
  induction stack, deepest using drainStack.induct with
  | case1 deepest => rw [askStack, drainStack]
  | case2 t distance rest deepest ih =>
    have ht : t.NodesOnly := h (t, distance) (List.mem_cons_self ..)
    have hnext : ∀ entry ∈ (t.children.map (·, distance + 1)).reverse ++ rest,
        entry.1.NodesOnly := by
      intro entry hentry
      rcases List.mem_append.1 hentry with hentry | hentry
      · obtain ⟨u, hu, rfl⟩ := List.mem_map.1 (List.mem_reverse.1 hentry)
        exact ht.children hu
      · exact h entry (List.mem_cons_of_mem _ hentry)
    rw [askStack, ht.checked, ok_bind, ih hnext, drainStack]

theorem askStackDepth_eq_ok (ht : t.NodesOnly) : t.askStackDepth = .ok t.stackDepth :=
  askStack_eq_ok (fun entry hentry => by rw [List.mem_singleton.1 hentry]; exact ht) 0

end Isolate.Tree
