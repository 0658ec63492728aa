import Isolate.Proofs.Distinct
import Isolate.Proofs.Keys
import Isolate.Proofs.Tree.Level
import Mathlib.Data.List.Sort

/-!
# The names of the variables

A visitor that adds names to a set, the variables that a queue lists, and a dictionary that counts
their names all come to the same variable leaves, though not in the same order.  A set does not
depend on the order in which names are added, nor a count on the order in which it grows, so the
three agree; only the order of the keys of the dictionary is that of the queue.

* `HasKeys` - the trees that can be asked;
* `gatheredNames_eq_ok_iff`, `askVariables_eq_ok_iff`, `nameCounts_eq_ok_iff` - what each of the
  three answers, and which trees it answers for;
* `Built.gatheredNames`, `Built.nameCounts`, `Built.orderedNames` - in a built tree the answers are
  what the two orders of its nodes give when no name is refused;
* `NamesAgree` - what the answers have in common;
* `variable_queries_agree` - **the questions about variables agree**.
-/

namespace Isolate.Tree

-- Sums start from the built-in zero, whatever else is imported.
attribute [local instance (2000)] Zero.ofOfNat0

variable {ν : Type} {t : Tree ν}

/-- A tree of nodes, whose variables have names that can be looked up. -/
def HasKeys (t : Tree ν) : Prop :=
  t.NodesOnly ∧ ∀ leaf ∈ t.variableLeaves, leaf.1.isKey = true

theorem hasKeys_iff : t.HasKeys ↔
    t.NodesOnly ∧ ∀ name ∈ t.preorder.filterMap variableName?, name.isKey = true := by
  rw [HasKeys, ← map_fst_variableLeaves, List.forall_mem_map]

/-! ## The visitor -/

/-- A visitor that gets through has met nodes only. -/
theorem nodesOnly_of_acceptAll {σ : Type} {visitor : Visitor ν σ} {s s' : σ}
    (h : t.acceptAll visitor s = .ok s') : t.NodesOnly := by
  rw [acceptAll_eq] at h
  intro found hfound
  generalize t.preorder = nodes at h hfound
  induction nodes generalizing s with
  | nil => exact List.not_mem_nil hfound
  | cons node nodes ih =>
    rw [List.foldlM_cons, bind_eq_ok_iff] at h
    obtain ⟨next, hnext, h⟩ := h
    rcases List.mem_cons.1 hfound with rfl | hfound
    · cases hnext
    · exact ih h hfound

/-- Where there are only nodes, the visitor takes one name after the other. -/
theorem gatheredNames_eq (ht : t.NodesOnly) :
    t.gatheredNames = Name.ifKeys (t.preorder.filterMap variableName?)
      (Name.distinct (t.preorder.filterMap variableName?)) := by
  have hnames : ∀ (nodes : List (Tree ν)) (set : List Name), (∀ found, foreign found ∉ nodes) →
      nodes.foldlM (fun set node => node.accept nameGatherer set) set
        = (nodes.filterMap variableName?).foldlM (fun set n => n.ifKey (n.addTo set)) set := by
    intro nodes
    induction nodes with
    | nil => exact fun _ _ => rfl
    | cons node nodes ih =>
      intro set h
      have hrest := fun set => ih set fun found hfound => h found (List.mem_cons_of_mem _ hfound)
      rw [List.foldlM_cons]
      cases node with
      | var name stored => exact bind_congr hrest
      | foreign found => exact absurd List.mem_cons_self (h found)
      | seq kind terms => cases kind <;> exact hrest set
      | _ => exact hrest set
  rw [gatheredNames, acceptAll_eq, hnames _ _ ht, Name.foldlM_ifKey, Name.foldl_addTo_nil]

theorem gatheredNames_eq_ok_iff {names : List Name} :
    t.gatheredNames = .ok names ↔
      t.HasKeys ∧ names = Name.distinct (t.preorder.filterMap variableName?) := by
  rw [hasKeys_iff, and_assoc]
  constructor
  · intro h
    have ht : t.NodesOnly := nodesOnly_of_acceptAll h
    rw [gatheredNames_eq ht, Name.ifKeys_eq_ok_iff] at h
    exact ⟨ht, h⟩
  · rintro ⟨ht, h⟩
    rw [gatheredNames_eq ht, Name.ifKeys_eq_ok_iff]
    exact h

/-! ## The queue -/

/-- A queue that is listed holds nodes only. -/
theorem nodesOnly_of_askQueue {queue nodes : List (Tree ν)} (h : askQueue queue = .ok nodes) :
    ∀ t ∈ queue, t.NodesOnly := by
  induction queue using drainQueue.induct generalizing nodes with
  | case1 => exact fun _ ht => absurd ht List.not_mem_nil
  | case2 t rest ih =>
    rw [askQueue, bind_eq_ok_iff] at h
    obtain ⟨node, hnode, h⟩ := h
    rw [bind_eq_ok_iff] at h
    obtain ⟨others, hothers, -⟩ := h
    obtain ⟨hrest, hchildren⟩ := List.forall_mem_append.1 (ih hothers)
    refine List.forall_mem_cons.2 ⟨nodesOnly_of_children ?_ hchildren, hrest⟩
    rintro found rfl
    exact absurd hnode (by simp [checked])

theorem askNodesOf_eq_ok_iff {s : Selector} {found : List (Tree ν)} :
    t.askNodesOf s = .ok found ↔ t.NodesOnly ∧ found = t.nodesOf s := by
  rw [askNodesOf]
  constructor
  · intro h
    obtain ⟨nodes, hnodes, h⟩ := bind_eq_ok_iff.1 h
    have ht : t.NodesOnly := nodesOnly_of_askQueue hnodes t (List.mem_singleton_self t)
    rw [askNodes_eq_ok ht] at hnodes
    obtain rfl := Except.ok.inj hnodes
    exact ⟨ht, (Except.ok.inj h).symm⟩
  · rintro ⟨ht, rfl⟩
    rw [askNodes_eq_ok ht]
    rfl

theorem askVariables_eq_ok_iff {leaves : List (Tree ν)} :
    t.askVariables = .ok leaves ↔ t.NodesOnly ∧ leaves = t.nodesOf (.kind .var) :=
  askNodesOf_eq_ok_iff

/-- A node has the name of a variable if it is one. -/
theorem isSelected_var (t : Tree ν) : t.isSelected (.kind .var) = t.variableName?.isSome := by
  cases t with
  | seq kind terms => cases kind <;> rfl
  | _ => rfl

theorem filterMap_nodesOf_var (t : Tree ν) :
    (t.nodesOf (.kind .var)).filterMap variableName? = t.occurrences := by
  rw [nodesOf, List.filterMap_filter, occurrences]
  refine List.filterMap_congr fun u _ => ?_
  rw [isSelected_var]
  cases u.variableName? <;> rfl

/-- The variables among the nodes are the variable leaves. -/
theorem nodesOf_var_perm (t : Tree ν) :
    (t.nodesOf (.kind .var)).Perm (t.variableLeaves.map fun leaf => var leaf.1 leaf.2) := by
  have hleaves : t.preorder.filter (isSelected (.kind .var))
      = t.variableLeaves.map fun leaf => var leaf.1 leaf.2 := by
    rw [variableLeaves, List.map_filterMap, ← List.filterMap_eq_filter]
    refine List.filterMap_congr fun u _ => ?_
    cases u with
    | seq kind terms => cases kind <;> rfl
    | _ => rfl
  exact hleaves ▸ t.breadthFirst_perm.filter _

/-! ## The dictionary -/

theorem nameCounts_eq (ht : t.NodesOnly) :
    t.nameCounts = Name.ifKeys t.occurrences
      ((Name.distinct t.occurrences).map fun n => (n, t.occurrences.countP n.isSame)) := by
  rw [nameCounts, askVariables_eq_ok_iff.2 ⟨ht, rfl⟩, ok_bind, filterMap_nodesOf_var,
    Name.foldlM_ifKey, Name.foldl_countIn]

theorem nameCounts_eq_ok_iff {counts : List (Name × Nat)} :
    t.nameCounts = .ok counts ↔
      t.HasKeys ∧ counts = (Name.distinct t.occurrences).map fun n =>
        (n, t.occurrences.countP n.isSame) := by
  have hkeys : (∀ name ∈ t.preorder.filterMap variableName?, name.isKey = true) ↔
      ∀ name ∈ t.occurrences, name.isKey = true := by
    simp only [t.occurrences_perm.mem_iff]
  rw [hasKeys_iff, and_assoc, hkeys]
  constructor
  · intro h
    obtain ⟨leaves, hleaves, -⟩ := bind_eq_ok_iff.1 h
    have ht : t.NodesOnly := (askVariables_eq_ok_iff.1 hleaves).1
    rw [nameCounts_eq ht, Name.ifKeys_eq_ok_iff] at h
    exact ⟨ht, h⟩
  · rintro ⟨ht, h⟩
    rw [nameCounts_eq ht, Name.ifKeys_eq_ok_iff]
    exact h

/-! ## The set in order -/

theorem orderedNames_eq_ok_iff {free : List Name} :
    t.orderedNames = .ok free ↔ ∃ names, t.gatheredNames = .ok names ∧
      Name.sorted? names = some free := by
  rw [orderedNames, bind_eq_ok_iff]
  refine exists_congr fun names => and_congr_right fun _ => ?_
  cases Name.sorted? names with
  | some each => simp
  | none => simp

/-- The names have an order if any two of them compare. -/
theorem exists_orderedNames_iff :
    (∃ free, t.orderedNames = .ok free) ↔
      t.HasKeys ∧ ∀ leaf ∈ t.variableLeaves, ∀ other ∈ t.variableLeaves,
        leaf.1.Comparable other.1 := by
  have hcompare : (∀ leaf ∈ t.variableLeaves, ∀ other ∈ t.variableLeaves,
      leaf.1.Comparable other.1) ↔
      ∃ each, Name.sorted? (Name.distinct (t.preorder.filterMap variableName?)) = some each := by
    rw [Name.sorted?_distinct, Name.exists_sorted?_iff, ← map_fst_variableLeaves]
    simp only [List.forall_mem_map]
  rw [hcompare]
  constructor
  · rintro ⟨free, hfree⟩
    obtain ⟨names, hnames, hsorted⟩ := orderedNames_eq_ok_iff.1 hfree
    obtain ⟨hkeys, rfl⟩ := gatheredNames_eq_ok_iff.1 hnames
    exact ⟨hkeys, free, hsorted⟩
  · rintro ⟨hkeys, free, hsorted⟩
    exact ⟨free, orderedNames_eq_ok_iff.2 ⟨_, gatheredNames_eq_ok_iff.2 ⟨hkeys, rfl⟩, hsorted⟩⟩

/-! ## Built trees -/

theorem Built.exists_text (ht : t.Built) {name : Name}
    (hname : name ∈ t.preorder.filterMap variableName?) : ∃ text, name = .text text := by
  obtain ⟨u, hu, hname⟩ := List.mem_filterMap.1 hname
  cases u with
  | var n stored =>
    obtain rfl := Option.some.inj hname
    exact (ht.preorder hu).parts
  | _ => cases hname

theorem Built.hasKeys (ht : t.Built) : t.HasKeys := by
  refine hasKeys_iff.2 ⟨ht.nodesOnly, fun name hname => ?_⟩
  obtain ⟨text, rfl⟩ := ht.exists_text hname
  rfl

/-- The names that the visitor gathers are those that preorder finds. -/
theorem Built.gatheredNames (ht : t.Built) : t.gatheredNames = .ok t.variableNames := by
  refine gatheredNames_eq_ok_iff.2 ⟨ht.hasKeys, ?_⟩
  rw [variableNames, Name.distinct_of_texts fun name => ht.exists_text]

/-- The dictionary is the tally of the names. -/
theorem Built.nameCounts (ht : t.Built) : t.nameCounts = .ok t.usage := by
  have htexts : ∀ name ∈ t.occurrences, ∃ text, name = .text text := fun name hname =>
    ht.exists_text (t.occurrences_perm.mem_iff.1 hname)
  refine nameCounts_eq_ok_iff.2 ⟨ht.hasKeys, ?_⟩
  rw [usage, tally, Name.distinct_of_texts htexts]
  refine List.map_congr_left fun name hname => ?_
  obtain ⟨text, rfl⟩ := htexts name (List.mem_eraseDups.1 hname)
  refine congrArg (Name.text text, ·) (List.countP_congr fun m _ => ?_)
  rw [Name.isSame_text, beq_iff_eq, beq_iff_eq]
  exact eq_comm

/-- The names in order are those that a compiled formula takes where none are given. -/
theorem Built.orderedNames (ht : t.Built) :
    t.orderedNames = .ok (t.freeVariables.map .text) := by
  have htexts : ∀ name ∈ t.variableNames, ∃ text, name = .text text := fun name hname =>
    ht.exists_text (mem_variableNames.1 hname)
  obtain ⟨texts, hsorted, hordered, hmem⟩ := Name.exists_sorted?_texts htexts
  have hfree : ∀ text, text ∈ texts ↔ text ∈ t.freeVariables := by
    intro text
    rw [hmem, freeVariables, mem_sortedOnce, List.mem_filterMap]
    constructor
    · exact fun h => ⟨_, h, rfl⟩
    · rintro ⟨name, hname, htext⟩
      obtain ⟨text', rfl⟩ := htexts name hname
      obtain rfl := Option.some.inj htext
      exact hname
  rw [hordered.eq_of_mem_iff (sortedOnce_pairwise _) hfree] at hsorted
  exact orderedNames_eq_ok_iff.2 ⟨_, ht.gatheredNames, hsorted⟩

/-! ## Agreement -/

/-- Where a variable with a name is first met, breadth first. -/
def firstUse (t : Tree ν) (name : Name) : Nat :=
  t.breadthFirst.findIdx fun node => node.variableName?.any name.isSame

/-- Nodes without a name keep what is first before what is first later. -/
theorem findIdx_lt_of_names {p q : Name → Bool} {nodes : List (Tree ν)}
    (h : (nodes.filterMap variableName?).findIdx p < (nodes.filterMap variableName?).findIdx q) :
    nodes.findIdx (fun node => node.variableName?.any p)
      < nodes.findIdx fun node => node.variableName?.any q := by
  induction nodes with
  | nil => exact h
  | cons node nodes ih =>
    rw [List.findIdx_cons, List.findIdx_cons]
    cases hname : node.variableName? with
    | none =>
      rw [List.filterMap_cons_none hname] at h
      exact Nat.succ_lt_succ (ih h)
    | some name =>
      rw [List.filterMap_cons_some hname, List.findIdx_cons, List.findIdx_cons] at h
      rw [Option.any_some, Option.any_some]
      cases hq : q name with
      | true => simp [hq] at h
      | false =>
        cases hp : p name with
        | true => exact Nat.succ_pos _
        | false =>
          rw [hp, hq] at h
          exact Nat.succ_lt_succ (ih (Nat.lt_of_succ_lt_succ h))

/-- The first name of some kind is that of the first node that has one. -/
theorem exists_getElem?_findIdx {p : Name → Bool} {name : Name} {nodes : List (Tree ν)}
    (h : (nodes.filterMap variableName?)[(nodes.filterMap variableName?).findIdx p]? = some name) :
    ∃ stored, nodes[nodes.findIdx fun node => node.variableName?.any p]?
      = some (var name stored) := by
  induction nodes with
  | nil => cases h
  | cons node nodes ih =>
    rw [List.findIdx_cons]
    cases hname : node.variableName? with
    | none =>
      rw [List.filterMap_cons_none hname] at h
      exact ih h
    | some n =>
      rw [List.filterMap_cons_some hname, List.findIdx_cons] at h
      rw [Option.any_some]
      cases hp : p n with
      | true =>
        rw [hp] at h
        cases node with
        | var m stored =>
          obtain rfl := Option.some.inj hname
          obtain rfl := Option.some.inj h
          exact ⟨stored, rfl⟩
        | _ => cases hname
      | false =>
        rw [hp] at h
        exact ih h

/-- What the answers about the variables of a tree have in common: a set of names, a list of the
variables, and a dictionary of counts. -/
structure NamesAgree (t : Tree ν) (names : List Name) (leaves : List (Tree ν))
    (counts : List (Name × Nat)) : Prop where
  /-- The variables are listed breadth first. -/
  leaves_eq : leaves = t.breadthFirst.filter (isSelected (.kind .var))
  /-- They are the variable leaves, each once. -/
  leaves_perm : leaves.Perm (t.variableLeaves.map fun leaf => var leaf.1 leaf.2)
  /-- No name is twice in the set. -/
  names_once : names.Pairwise fun n m => n.isSame m = false
  /-- The names in the set are those of the variable leaves. -/
  names_used : ∀ name : Name, name.isAmong names = true ↔
    ∃ leaf ∈ t.variableLeaves, name.isSame leaf.1 = true
  /-- They are the names of the listed variables. -/
  names_leaves : ∀ name : Name, name.isAmong names = name.isAmong (leaves.filterMap variableName?)
  /-- They are the keys of the dictionary. -/
  names_counts : ∀ name : Name, name.isAmong names = name.isAmong (counts.map Prod.fst)
  /-- The count of a name is the number of variable leaves with that name. -/
  count_eq : ∀ entry ∈ counts, entry.2 = t.variableLeaves.countP fun leaf => entry.1.isSame leaf.1
  /-- The counts add up to the number of variable leaves. -/
  sum_counts : (counts.map Prod.snd).sum = t.variableLeaves.length
  /-- The keys stand in the order in which they are first met, breadth first. -/
  counts_ordered : counts.Pairwise fun a b => t.firstUse a.1 < t.firstUse b.1
  /-- Each key is the name that is met there. -/
  counts_first : ∀ entry ∈ counts, ∃ stored,
    t.breadthFirst[t.firstUse entry.1]? = some (var entry.1 stored)
  /-- The name of a placeholder is nowhere among these names unless a variable leaf has it, too. -/
  placeholder : ∀ name, hole name ∈ t.preorder →
    (∀ leaf ∈ t.variableLeaves, name.isSame leaf.1 = false) →
    name.isAmong names = false ∧ name.isAmong (leaves.filterMap variableName?) = false ∧
      name.isAmong (counts.map Prod.fst) = false

theorem isAmong_distinct_iff {name : Name} :
    name.isAmong (Name.distinct (t.preorder.filterMap variableName?)) = true ↔
      ∃ leaf ∈ t.variableLeaves, name.isSame leaf.1 = true := by
  rw [Name.isAmong_distinct, Name.isAmong, ← map_fst_variableLeaves, List.any_map, List.any_eq_true]
  rfl

theorem countP_occurrences (t : Tree ν) (name : Name) :
    t.occurrences.countP name.isSame
      = t.variableLeaves.countP fun leaf => name.isSame leaf.1 := by
  rw [t.occurrences_perm.countP_eq, ← map_fst_variableLeaves, List.countP_map]
  rfl

theorem length_occurrences (t : Tree ν) : t.occurrences.length = t.variableLeaves.length := by
  rw [t.occurrences_perm.length_eq, ← map_fst_variableLeaves, List.length_map]

theorem namesAgree (t : Tree ν) :
    t.NamesAgree (Name.distinct (t.preorder.filterMap variableName?)) (t.nodesOf (.kind .var))
      ((Name.distinct t.occurrences).map fun n => (n, t.occurrences.countP n.isSame)) := by
  have hkeys : ((Name.distinct t.occurrences).map fun n =>
      (n, t.occurrences.countP n.isSame)).map Prod.fst = Name.distinct t.occurrences := by
    rw [List.map_map]
    exact List.map_id _
  have hleaves : ∀ name : Name,
      name.isAmong (Name.distinct (t.preorder.filterMap variableName?))
        = name.isAmong t.occurrences := fun name => by
    rw [Name.isAmong_distinct, Name.isAmong_perm t.occurrences_perm]
  have hcounts : ∀ name : Name,
      name.isAmong (Name.distinct (t.preorder.filterMap variableName?))
        = name.isAmong (Name.distinct t.occurrences) := fun name => by
    rw [hleaves, Name.isAmong_distinct]
  refine
    { leaves_eq := rfl
      leaves_perm := t.nodesOf_var_perm
      names_once := Name.pairwise_distinct _
      names_used := fun name => isAmong_distinct_iff
      names_leaves := fun name => ?_
      names_counts := fun name => ?_
      count_eq := ?_
      sum_counts := ?_
      counts_ordered := ?_
      counts_first := ?_
      placeholder := ?_ }
  · rw [filterMap_nodesOf_var, hleaves]
  · rw [hkeys, hcounts]
  · rw [List.forall_mem_map]
    exact fun name _ => t.countP_occurrences name
  · rw [List.map_map, ← t.length_occurrences]
    exact Name.sum_countP_distinct t.occurrences
  · rw [List.pairwise_map]
    exact (Name.pairwise_findIdx_distinct t.occurrences).imp findIdx_lt_of_names
  · rw [List.forall_mem_map]
    exact fun name hname => exists_getElem?_findIdx (Name.getElem?_findIdx_distinct hname)
  · intro name _ hunused
    have hnone : name.isAmong (Name.distinct (t.preorder.filterMap variableName?)) = false := by
      rw [← Bool.not_eq_true, isAmong_distinct_iff]
      rintro ⟨leaf, hleaf, hsame⟩
      exact absurd hsame (by simp [hunused leaf hleaf])
    rw [hkeys, ← hcounts, filterMap_nodesOf_var, ← hleaves]
    exact ⟨hnone, hnone, hnone⟩

/-- **The questions about variables agree.**  The set that a visitor gathers and the dictionary are
refused for the same trees, those with a plain value in place of a node and those with a name that
cannot be looked up; the variables are listed for every tree of nodes.  All three answers are about
the same names (`NamesAgree`).  The set in order strictly increases and has the same names, and it
is refused only where two names do not compare. -/
theorem variable_queries_agree (t : Tree ν) :
    ((∃ names, t.gatheredNames = .ok names) ↔ t.HasKeys) ∧
    ((∃ leaves, t.askVariables = .ok leaves) ↔ t.NodesOnly) ∧
    ((∃ counts, t.nameCounts = .ok counts) ↔ t.HasKeys) ∧
    ((∃ free, t.orderedNames = .ok free) ↔
      t.HasKeys ∧ ∀ leaf ∈ t.variableLeaves, ∀ other ∈ t.variableLeaves,
        leaf.1.Comparable other.1) ∧
    (t.HasKeys → ∃ names leaves counts,
      t.gatheredNames = .ok names ∧
      t.askVariables = .ok leaves ∧
      t.nameCounts = .ok counts ∧
      t.NamesAgree names leaves counts ∧
      ∀ free, t.orderedNames = .ok free →
        free.Pairwise Name.Before ∧ ∀ name : Name, name.isAmong free = name.isAmong names) := by
  have hgathered : (∃ names, t.gatheredNames = .ok names) ↔ t.HasKeys :=
    ⟨fun ⟨_, h⟩ => (gatheredNames_eq_ok_iff.1 h).1,
      fun h => ⟨_, gatheredNames_eq_ok_iff.2 ⟨h, rfl⟩⟩⟩
  have hlisted : (∃ leaves, t.askVariables = .ok leaves) ↔ t.NodesOnly :=
    ⟨fun ⟨_, h⟩ => (askVariables_eq_ok_iff.1 h).1,
      fun h => ⟨_, askVariables_eq_ok_iff.2 ⟨h, rfl⟩⟩⟩
  have hcounted : (∃ counts, t.nameCounts = .ok counts) ↔ t.HasKeys :=
    ⟨fun ⟨_, h⟩ => (nameCounts_eq_ok_iff.1 h).1,
      fun h => ⟨_, nameCounts_eq_ok_iff.2 ⟨h, rfl⟩⟩⟩
  refine ⟨hgathered, hlisted, hcounted, exists_orderedNames_iff, fun ht => ?_⟩
  have hnames := gatheredNames_eq_ok_iff.2 ⟨ht, rfl⟩
  refine ⟨_, _, _, hnames, askVariables_eq_ok_iff.2 ⟨ht.1, rfl⟩,
    nameCounts_eq_ok_iff.2 ⟨ht, rfl⟩, t.namesAgree, fun free hfree => ?_⟩
  obtain ⟨names, hgathered, hsorted⟩ := orderedNames_eq_ok_iff.1 hfree
  obtain rfl := Except.ok.inj (hnames.symm.trans hgathered)
  exact Name.sorted?_spec hsorted

/-- The formula `x * x * y + y + p`, where the second `x` and `p` are placeholders. -/
def namesakes : Tree Int :=
  seq .sum [⟨seq .product [⟨var (.text "x") none, true⟩, ⟨hole (.text "x"), true⟩,
    ⟨var (.text "y") (some 3), true⟩], true⟩, ⟨var (.text "y") none, true⟩,
    ⟨hole (.text "p"), true⟩]

theorem built_namesakes : namesakes.Built := by
  refine built_seq (List.forall_mem_cons.2 ⟨built_seq ?_, ?_⟩)
  · simp [Built.var, Built.hole]
  · simp [Built.var, Built.hole]

/-- The visitor meets `x` first and the queue `y`, which is nearer to the root.  The placeholder `x`
is not counted, and `p` is not among the names at all. -/
theorem queries_namesakes :
    namesakes.HasKeys ∧ ∃ leaves,
      namesakes.gatheredNames = .ok [.text "x", .text "y"] ∧
      namesakes.askVariables = .ok leaves ∧
      namesakes.nameCounts = .ok [(.text "y", 2), (.text "x", 1)] ∧
      namesakes.NamesAgree [.text "x", .text "y"] leaves [(.text "y", 2), (.text "x", 1)] ∧
      namesakes.orderedNames = .ok [.text "x", .text "y"] := by
  have husage : namesakes.usage = [(.text "y", 2), (.text "x", 1)] := by
    rw [usage, occurrences, breadthFirst_eq]
    rfl
  have hfree : namesakes.freeVariables = ["x", "y"] := List.mergeSort_of_pairwise (by decide)
  have hordered := built_namesakes.orderedNames
  rw [hfree] at hordered
  have hkeys : namesakes.HasKeys := built_namesakes.hasKeys
  obtain ⟨-, -, -, -, hanswers⟩ := variable_queries_agree namesakes
  obtain ⟨names, leaves, counts, hnames, hleaves, hcounts, hagree, -⟩ := hanswers hkeys
  obtain rfl := Except.ok.inj (built_namesakes.gatheredNames.symm.trans hnames)
  obtain rfl := Except.ok.inj (built_namesakes.nameCounts.symm.trans hcounts)
  rw [husage] at hcounts hagree
  exact ⟨hkeys, leaves, hnames, hleaves, hcounts, hagree, hordered⟩

end Isolate.Tree
