import Isolate.Proofs.Tree.Ask
import Isolate.Tree.Edit
import Isolate.Tree.Visit

/-!
# Levels

The depth of a node is the number of nodes on the way down to it from the root, the node itself
included.  Breadth-first order lists the nodes level by level, each level in the order in which
preorder meets its nodes.  The queue always holds the rest of one level and, behind it, the children
of what has been taken off that level already.

* `placed`, `atDepth` - the nodes in preorder with their depths, and the nodes at one depth;
* `drainQueue_append` - a queue gives first its beginning, and then the children of that after
  whatever stood behind it;
* `breadthFirst_eq` - **breadth-first order is level order**;
* `acceptAll_eq` - a visitor is called for every node in preorder, with the method of its kind;
* `walks_by_level` - all of this for the walks that ask every node.
-/

namespace Isolate.Tree

variable {ν : Type}

/-! ## Nodes with their depths -/

mutual

/-- The nodes of a tree in preorder, each with its depth, where the root has a given one. -/
def placed (depth : Nat) : Tree ν → List (Nat × Tree ν)
  | seq kind terms => (depth, seq kind terms) :: placedTerms (depth + 1) terms
  | pow base exponent =>
    (depth, pow base exponent) :: (placed (depth + 1) base ++ placed (depth + 1) exponent)
  | fn id argument => (depth, fn id argument) :: placed (depth + 1) argument
  | t => [(depth, t)]

/-- The nodes of some terms, which have a given depth. -/
def placedTerms (depth : Nat) : List (Signed (Tree ν)) → List (Nat × Tree ν)
  | [] => []
  | ⟨t, _⟩ :: rest => placed depth t ++ placedTerms depth rest

end

/-- The nodes at a depth, in the order in which preorder meets them. -/
def atDepth (t : Tree ν) (depth : Nat) : List (Tree ν) :=
  ((t.placed 1).filter (·.1 == depth)).map Prod.snd

theorem placed_eq (depth : Nat) (t : Tree ν) :
    t.placed depth = (depth, t) :: t.children.flatMap (placed (depth + 1)) := by
  cases t with
  | seq kind terms =>
    have h : ∀ terms : List (Signed (Tree ν)),
        placedTerms (depth + 1) terms = terms.flatMap fun t => t.item.placed (depth + 1) := by
      intro terms
      induction terms with
      | nil => rfl
      | cons t terms ih => rw [placedTerms, ih, List.flatMap_cons]
    rw [placed, h, children, List.flatMap_map]
  | _ => simp [placed, children]

/-- Without the depths, these are the nodes in preorder. -/
theorem map_placed (depth : Nat) (t : Tree ν) : (t.placed depth).map Prod.snd = t.preorder := by
  induction t using induction_children generalizing depth with
  | node t ih =>
    rw [placed_eq, preorder_eq, List.map_cons, List.map_flatMap]
    congr 1
    exact List.flatMap_congr fun c hc => ih c hc (depth + 1)

/-- A path that leads to a node has one step less than the node is deep. -/
theorem mem_placed_iff {depth : Nat} {t : Tree ν} {entry : Nat × Tree ν} :
    entry ∈ t.placed depth ↔
      ∃ path, entry.1 = depth + path.length ∧ t.subtree? path = some entry.2 := by
  induction t using induction_children generalizing depth with
  | node t ih =>
    rw [placed_eq, List.mem_cons, List.mem_flatMap]
    constructor
    · rintro (rfl | ⟨c, hc, hentry⟩)
      · exact ⟨[], rfl, rfl⟩
      · obtain ⟨path, hdepth, hpath⟩ := (ih c hc).1 hentry
        obtain ⟨i, hi⟩ := List.mem_iff_getElem?.1 hc
        refine ⟨i :: path, ?_, ?_⟩
        · rw [hdepth, List.length_cons]
          omega
        · rw [subtree?, hi, Option.bind_some, hpath]
    · rintro ⟨path, hdepth, hpath⟩
      cases path with
      | nil => exact .inl (Prod.ext hdepth (Option.some.inj hpath).symm)
      | cons i path =>
        rw [subtree?] at hpath
        obtain ⟨c, hc, hpath⟩ := Option.bind_eq_some_iff.1 hpath
        have hmem : c ∈ t.children := List.mem_of_getElem? hc
        refine .inr ⟨c, hmem, (ih c hmem).2 ⟨path, ?_, hpath⟩⟩
        rw [hdepth, List.length_cons]
        omega

/-! ## Levels of a queue -/

/-- The nodes that are some steps below the nodes of a queue. -/
def level : Nat → List (Tree ν) → List (Tree ν)
  | 0, queue => queue
  | steps + 1, queue => level steps (queue.flatMap children)

theorem level_flatMap (steps : Nat) (queue : List (Tree ν)) :
    level steps queue = queue.flatMap fun t => level steps [t] := by
  induction steps generalizing queue with
  | zero => exact (List.flatMap_singleton' queue).symm
  | succ steps ih =>
    simp only [level, List.flatMap_singleton]
    rw [ih, List.flatMap_assoc]
    exact List.flatMap_congr fun t _ => (ih t.children).symm

/-- What is some steps below a node is so much deeper. -/
theorem filter_placed (depth steps : Nat) (t : Tree ν) :
    ((t.placed depth).filter (·.1 == depth + steps)).map Prod.snd = level steps [t] := by
  induction steps generalizing depth t with
  | zero =>
    have hdeeper : ∀ entry ∈ t.children.flatMap (placed (depth + 1)),
        ¬(entry.1 == depth + 0) = true := by
      intro entry hentry
      obtain ⟨c, -, hentry⟩ := List.mem_flatMap.1 hentry
      obtain ⟨path, hdepth, -⟩ := mem_placed_iff.1 hentry
      rw [beq_iff_eq, hdepth]
      omega
    rw [placed_eq, List.filter_cons_of_pos (by simp), List.filter_eq_nil_iff.2 hdeeper]
    rfl
  | succ steps ih =>
    rw [placed_eq, List.filter_cons, if_neg (by simp), List.filter_flatMap, List.map_flatMap, level,
      List.flatMap_singleton, level_flatMap]
    refine List.flatMap_congr fun c _ => ?_
    rw [← ih (depth + 1) c, Nat.add_assoc, Nat.add_comm 1 steps]

theorem level_eq_atDepth (steps : Nat) (t : Tree ν) : level steps [t] = t.atDepth (1 + steps) :=
  (filter_placed 1 steps t).symm

/-! ## Breadth-first order -/

theorem depth_lt_of_mem_children {t c : Tree ν} (h : c ∈ t.children) : c.depth < t.depth := by
  cases t with
  | seq kind terms =>
    obtain ⟨t, ht, rfl⟩ := List.mem_map.1 h
    exact depth_lt_of_mem ht
  | pow base exponent =>
    simp only [children, List.mem_cons, List.not_mem_nil, or_false] at h
    rcases h with rfl | rfl <;> simp only [depth] <;> omega
  | fn id argument =>
    obtain rfl := List.mem_singleton.1 h
    simp only [depth]
    omega
  | _ => exact absurd h List.not_mem_nil

/-- **A queue gives first its beginning**, and then, after whatever stood behind that, the children
of the beginning. -/
theorem drainQueue_append (queue behind : List (Tree ν)) :
    drainQueue (queue ++ behind) = queue ++ drainQueue (behind ++ queue.flatMap children) := by
  induction queue generalizing behind with
  | nil => rw [List.flatMap_nil, List.append_nil, List.nil_append, List.nil_append]
  | cons t queue ih =>
    rw [List.cons_append, drainQueue, List.append_assoc, ih, List.append_assoc, List.flatMap_cons,
      List.cons_append]

/-- A queue of trees that are not too deep gives one level after the other. -/
theorem drainQueue_eq {queue : List (Tree ν)} {depth : Nat} (h : ∀ t ∈ queue, t.depth ≤ depth) :
    drainQueue queue = (List.range depth).flatMap fun steps => level steps queue := by
  induction depth generalizing queue with
  | zero =>
    cases queue with
    | nil => rw [drainQueue]; rfl
    | cons t queue => exact absurd (h t List.mem_cons_self) (Nat.not_le.2 t.depth_pos)
  | succ depth ih =>
    have hbelow : ∀ c ∈ queue.flatMap children, c.depth ≤ depth := by
      intro c hc
      obtain ⟨t, ht, hc⟩ := List.mem_flatMap.1 hc
      have hlt := depth_lt_of_mem_children hc
      have hle := h t ht
      omega
    have hlevel := drainQueue_append queue []
    rw [List.append_nil, List.nil_append, ih hbelow] at hlevel
    rw [hlevel, List.range_succ_eq_map, List.flatMap_cons, List.flatMap_map]
    rfl

/-- **Breadth-first order is level order.** -/
theorem breadthFirst_eq (t : Tree ν) :
    t.breadthFirst = (List.range' 1 t.depth).flatMap t.atDepth := by
  have hlevels : drainQueue [t] = (List.range t.depth).flatMap fun steps => level steps [t] :=
    drainQueue_eq (List.forall_mem_singleton.2 (Nat.le_refl t.depth))
  rw [breadthFirst, hlevels, List.range'_eq_map_range, List.flatMap_map]
  exact List.flatMap_congr fun steps _ => level_eq_atDepth steps t

/-! ## Visitors -/

theorem length_preorder (t : Tree ν) : t.preorder.length = t.count := by
  induction t using induction_children with
  | node t ih =>
    rw [preorder_eq, count_eq_children, List.length_cons, List.length_flatMap,
      List.map_congr_left ih, Nat.add_comm]

/-- **A visitor is called for every node in preorder**, unless it refuses one. -/
theorem acceptAll_eq {σ : Type} (visitor : Visitor ν σ) (s : σ) (t : Tree ν) :
    t.acceptAll visitor s = t.preorder.foldlM (fun s node => node.accept visitor s) s := by
  induction t generalizing s with
  | seq kind terms ih =>
    have hterms : ∀ (terms : List (Signed (Tree ν))) (s : σ),
        (∀ t ∈ terms, ∀ s, t.item.acceptAll visitor s
          = t.item.preorder.foldlM (fun s node => node.accept visitor s) s) →
        acceptTerms visitor s terms
          = (preorderTerms terms).foldlM (fun s node => node.accept visitor s) s := by
      intro terms
      induction terms with
      | nil => intro s _; rfl
      | cons t terms ih =>
        intro s h
        obtain ⟨ht, hrest⟩ := List.forall_mem_cons.1 h
        rw [acceptTerms, preorderTerms, List.foldlM_append, ht]
        exact bind_congr fun s => ih s hrest
    rw [acceptAll, preorder, List.foldlM_cons]
    exact bind_congr fun s => hterms terms s ih
  | pow base exponent ihb ihe =>
    rw [acceptAll, preorder, List.foldlM_cons]
    refine bind_congr fun s => ?_
    rw [List.foldlM_append, ihb]
    exact bind_congr fun s => ihe s
  | fn id argument ih =>
    rw [acceptAll, preorder, List.foldlM_cons]
    exact bind_congr fun s => ih s
  | _ => simp [acceptAll, preorder]

theorem NodesOnly.exists_kind? {t node : Tree ν} (ht : t.NodesOnly) (hnode : node ∈ t.preorder) :
    ∃ kind, node.kind? = some kind := by
  cases node with
  | foreign found => exact absurd hnode (ht found)
  | _ => exact ⟨_, rfl⟩

/-- A node calls the method of its kind. -/
theorem accept_of_kind? {σ : Type} {t : Tree ν} {kind : Kind} (h : t.kind? = some kind)
    (visitor : Visitor ν σ) (s : σ) : t.accept visitor s = visitor kind t s := by
  cases t with
  | seq k terms => cases k <;> cases h <;> rfl
  | foreign found => cases h
  | _ => cases h; rfl

/-- Nodes of some kind, each with the method that it calls. -/
theorem exists_calls {nodes : List (Tree ν)}
    (h : ∀ node ∈ nodes, ∃ kind, node.kind? = some kind) :
    ∃ calls : List (Kind × Tree ν), calls.map Prod.snd = nodes ∧
      (∀ call ∈ calls, call.2.kind? = some call.1) ∧
      ∀ (σ : Type) (visitor : Visitor ν σ) (s : σ),
        nodes.foldlM (fun s node => node.accept visitor s) s
          = calls.foldlM (fun s call => visitor call.1 call.2 s) s := by
  induction nodes with
  | nil => exact ⟨[], rfl, List.forall_mem_nil _, fun _ _ _ => rfl⟩
  | cons node nodes ih =>
    obtain ⟨⟨kind, hkind⟩, hothers⟩ := List.forall_mem_cons.1 h
    obtain ⟨calls, hnodes, hkinds, hruns⟩ := ih hothers
    refine ⟨(kind, node) :: calls, by rw [List.map_cons, hnodes],
      List.forall_mem_cons.2 ⟨hkind, hkinds⟩, fun σ visitor s => ?_⟩
    rw [List.foldlM_cons, List.foldlM_cons, accept_of_kind? hkind]
    exact bind_congr fun s => hruns σ visitor s

/-! ## All walks -/

/-- **The walks over a tree agree.**  In a tree of nodes they all answer.  Breadth-first order is
preorder sorted by depth, so that both orders list the same nodes, as many as are counted; and a
visitor is called once for every node, in preorder, with the method of its kind. -/
theorem walks_by_level {t : Tree ν} (ht : t.NodesOnly) :
    ∃ breadthFirst depthFirst depth count,
      (Order.named "breadth_first" >>= t.askNodes) = .ok breadthFirst ∧
      (Order.named "depth_first" >>= t.askNodes) = .ok depthFirst ∧
      t.askDepth = .ok depth ∧
      t.askCount = .ok count ∧
      (t.placed 1).map Prod.snd = depthFirst ∧
      (∀ entry, entry ∈ t.placed 1 ↔
        ∃ path, entry.1 = 1 + path.length ∧ t.subtree? path = some entry.2) ∧
      breadthFirst = (List.range' 1 depth).flatMap t.atDepth ∧
      breadthFirst.Perm depthFirst ∧
      breadthFirst.length = count ∧
      depthFirst.length = count ∧
      ∃ calls : List (Kind × Tree ν), calls.map Prod.snd = depthFirst ∧
        (∀ call ∈ calls, call.2.kind? = some call.1) ∧
        ∀ (σ : Type) (visitor : Visitor ν σ) (s : σ),
          t.acceptAll visitor s = calls.foldlM (fun s call => visitor call.1 call.2 s) s := by
  obtain ⟨calls, hcalls, hkinds, hruns⟩ := exists_calls fun _ => ht.exists_kind?
  have hlength : t.breadthFirst.length = t.count := by
    rw [t.breadthFirst_perm.length_eq, length_preorder]
  exact ⟨t.breadthFirst, t.preorder, t.depth, t.count, askNodes_eq_ok ht .breadthFirst,
    askNodes_eq_ok ht .depthFirst, askDepth_eq_ok ht, askCount_eq_ok ht, map_placed 1 t,
    fun entry => mem_placed_iff, breadthFirst_eq t, t.breadthFirst_perm, hlength,
    length_preorder t, calls, hcalls, hkinds,
    fun σ visitor s => (acceptAll_eq visitor s t).trans (hruns σ visitor s)⟩

/-- The formula `x ^ 2 - sin(y) / 3`. -/
def unevenTree : Tree Int :=
  seq .sum [⟨pow (var (.text "x") none) (const 2), true⟩,
    ⟨seq .product [⟨fn Builtin.sin.code (hole (.text "y")), true⟩, ⟨const 3, false⟩], false⟩]

/-- The operands of the power and the terms of the product are one level, and the argument of the
function, which preorder meets before the divisor, is the last. -/
theorem walks_unevenTree :
    unevenTree.NodesOnly ∧ ∃ top second : List (Tree Int), ∃ nodes,
      (Order.named "breadth_first" >>= unevenTree.askNodes) = .ok nodes ∧
      nodes = top ++ second ++ [var (.text "x") none, const 2,
        fn Builtin.sin.code (hole (.text "y")), const 3] ++ [hole (.text "y")] ∧
      top = [unevenTree] ∧ second = unevenTree.children ∧ nodes.length = 8 := by
  have hnodes : unevenTree.NodesOnly := by
    intro found hfound
    simp [unevenTree, preorder, preorderTerms] at hfound
  obtain ⟨nodes, _, depth, count, hbreadth, -, hdepth, hcount, -, -, hlevels, -, hlength, -⟩ :=
    walks_by_level hnodes
  obtain rfl : 4 = depth := Except.ok.inj hdepth
  obtain rfl : 8 = count := Except.ok.inj hcount
  exact ⟨hnodes, [unevenTree], unevenTree.children, nodes, hbreadth, hlevels, rfl, rfl, hlength⟩

end Isolate.Tree
