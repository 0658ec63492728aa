import Isolate.Tree.Walk
import Mathlib.Algebra.BigOperators.Group.Multiset.Basic

/-!
# What the nodes of a tree say

The `label` of a node is everything it says besides its children.  `labels` collects those of a
whole tree, as often as they occur and in no order, so that two trees together have the labels of
another two exactly if no node was lost, made up or changed on the way.

* `labels_eq` - the labels of a tree are that of its root and those of the children;
* `card_labels` - there are as many as nodes.
-/

namespace Isolate

/-- What a node says besides its children. -/
inductive Label (ν : Type) where
  | const (value : ν)
  | var (name : Name) (stored : Option ν)
  | hole (name : Name)
  | seq (kind : SeqKind)
  | pow
  | fn (id : Int)
  | foreign (value : Datum)

namespace Tree

variable {ν : Type}

/-- The label of the root. -/
def label : Tree ν → Label ν
  | const value => .const value
  | var name stored => .var name stored
  | hole name => .hole name
  | seq kind _ => .seq kind
  | pow _ _ => .pow
  | fn id _ => .fn id
  | foreign value => .foreign value

/-- The labels of all nodes. -/
def labels (t : Tree ν) : Multiset (Label ν) := (t.preorder.map label : List (Label ν))

theorem labels_eq (t : Tree ν) : t.labels = t.label ::ₘ (t.children.map labels).sum := by
  have hflat : ∀ ts : List (Tree ν),
      (((ts.flatMap preorder).map label : List (Label ν)) : Multiset (Label ν))
        = (ts.map labels).sum := by
    intro ts
    induction ts with
    | nil => rfl
    | cons t ts ih =>
      rw [List.flatMap_cons, List.map_append, ← Multiset.coe_add, ih, List.map_cons, List.sum_cons]
      rfl
  rw [labels, preorder_eq t, List.map_cons, ← Multiset.cons_coe, hflat]

theorem labels_seq (kind : SeqKind) (terms : List (Signed (Tree ν))) :
    (seq kind terms).labels = .seq kind ::ₘ (terms.map (·.item.labels)).sum := by
  rw [labels_eq]
  simp [label, children, Function.comp_def]

/-- There are as many labels as nodes. -/
theorem card_labels (t : Tree ν) : t.labels.card = t.count := by
  induction t using induction_children with
  | node t ih =>
    have hcard : ∀ ts : List (Tree ν), (∀ c ∈ ts, c.labels.card = c.count) →
        (ts.map labels).sum.card = (ts.map (·.count)).sum := by
      intro ts
      induction ts with
      | nil => intro _; rfl
      | cons c ts ihts =>
        intro h
        rw [List.map_cons, List.sum_cons, Multiset.card_add, List.map_cons, List.sum_cons,
          h c (List.mem_cons_self ..), ihts fun d hd => h d (List.mem_cons_of_mem _ hd)]
    rw [labels_eq, Multiset.card_cons, hcard t.children ih, count_eq_children t, Nat.add_comm]

end Tree

end Isolate
