import Isolate.Proofs.Evaluation.Exact
import Isolate.Proofs.Tree.Constant
import Isolate.Proofs.Tree.Label
import Isolate.Proofs.Tree.Valid
import Isolate.Proofs.Tree.Walk

/-!
# Terms in another order

Two trees are `Reordered` if one comes from the other by permuting the terms of sequences, anywhere
in the tree and as often as one likes.  What a node says by itself survives that, so a walk over one
tree says the same as a walk over the other, up to the order (`map_preorder_perm`); everything that
is counted or looked for in a walk is the same.

* `labels_reordered`, `count_reordered`, `depth_reordered` - the nodes and the shape;
* `evaluatesConstant_reordered`, `variableNames_reordered`, `usage_reordered` - the variables;
* `isValid_reordered`, `Built.reordered` - what is wrong with a tree, and how it can be built;
* `exactValue?_reordered` - the exact value, under every assignment.
-/

namespace Isolate.Tree

variable {ν : Type}

/-- Trees that differ in the order of terms only: those of a sequence are permuted, or the change is
made inside a term, an operand or an argument, or in several steps. -/
inductive Reordered : Tree ν → Tree ν → Prop
  | refl (t : Tree ν) : Reordered t t
  | trans {t u v : Tree ν} : Reordered t u → Reordered u v → Reordered t v
  | perm {kind : SeqKind} {terms others : List (Signed (Tree ν))} :
      terms.Perm others → Reordered (seq kind terms) (seq kind others)
  | term {kind : SeqKind} {t u : Tree ν} (before : List (Signed (Tree ν))) (positive : Bool)
      (after : List (Signed (Tree ν))) :
      Reordered t u →
        Reordered (seq kind (before ++ ⟨t, positive⟩ :: after))
          (seq kind (before ++ ⟨u, positive⟩ :: after))
  | base {base base' : Tree ν} (exponent : Tree ν) :
      Reordered base base' → Reordered (pow base exponent) (pow base' exponent)
  | exponent {exponent exponent' : Tree ν} (base : Tree ν) :
      Reordered exponent exponent' → Reordered (pow base exponent) (pow base exponent')
  | argument {argument argument' : Tree ν} (id : Int) :
      Reordered argument argument' → Reordered (fn id argument) (fn id argument')

/-- Terms with the same sign whose items are reordered. -/
def TermReordered (a b : Signed (Tree ν)) : Prop :=
  a.positive = b.positive ∧ Reordered a.item b.item

/-- Terms that are reordered one by one make a reordered sequence, after any others. -/
theorem Reordered.terms {kind : SeqKind} {terms others : List (Signed (Tree ν))}
    (h : List.Forall₂ TermReordered terms others) (before : List (Signed (Tree ν))) :
    Reordered (seq kind (before ++ terms)) (seq kind (before ++ others)) := by
  induction h generalizing before with
  | nil => exact .refl _
  | @cons a b rest rest' hab _ ih =>
    obtain ⟨t, positive⟩ := a
    obtain ⟨u, positive'⟩ := b
    obtain ⟨rfl, hitem⟩ := hab
    have hfirst : Reordered (seq kind (before ++ ⟨t, positive⟩ :: rest))
        (seq kind (before ++ ⟨u, positive⟩ :: rest)) := .term before positive rest hitem
    have hrest := ih (before ++ [⟨u, positive⟩])
    rw [List.append_assoc, List.append_assoc] at hrest
    exact hfirst.trans hrest

variable {t u : Tree ν}

/-! ## Walks -/

/-- **A walk says the same, up to the order**, of two reordered trees, if what it asks of a node is
the same for reordered nodes. -/
theorem map_preorder_perm {β : Type} {g : Tree ν → β}
    (hg : ∀ {t u : Tree ν}, Reordered t u → g t = g u) (h : Reordered t u) :
    (t.preorder.map g).Perm (u.preorder.map g) := by
  induction h with
  | refl t => exact .refl _
  | trans _ _ ih ih' => exact ih.trans ih'
  | @perm kind terms others h =>
    have hroot : g (seq kind terms) = g (seq kind others) := hg (.perm h)
    rw [preorder_eq, preorder_eq (seq kind others), List.map_cons, List.map_cons, hroot]
    exact .cons _ (((h.map _).flatMap_right _).map g)
  | @term kind t u before positive after h ih =>
    have hroot : g (seq kind (before ++ ⟨t, positive⟩ :: after))
        = g (seq kind (before ++ ⟨u, positive⟩ :: after)) := hg (.term before positive after h)
    rw [preorder_eq, preorder_eq (seq kind (before ++ ⟨u, positive⟩ :: after)), List.map_cons,
      List.map_cons, hroot]
    refine .cons _ ?_
    simp only [children, List.map_append, List.map_cons, List.flatMap_append, List.flatMap_cons]
    exact .append_left _ (.append_right _ ih)
  | @base base base' exponent h ih =>
    have hroot := hg (.base exponent h)
    simp only [preorder, List.map_cons, List.map_append, hroot]
    exact .cons _ (.append_right _ ih)
  | @exponent exponent exponent' base h ih =>
    have hroot := hg (.exponent base h)
    simp only [preorder, List.map_cons, List.map_append, hroot]
    exact .cons _ (.append_left _ ih)
  | @argument argument argument' id h ih =>
    have hroot := hg (.argument id h)
    simp only [preorder, List.map_cons, hroot]
    exact .cons _ ih

/-- The same of what a walk picks out. -/
theorem filterMap_preorder_perm {β : Type} {g : Tree ν → Option β}
    (hg : ∀ {t u : Tree ν}, Reordered t u → g t = g u) (h : Reordered t u) :
    (t.preorder.filterMap g).Perm (u.preorder.filterMap g) := by
  have hwalk := (map_preorder_perm hg h).filterMap id
  simpa only [List.filterMap_map, Function.id_comp] using hwalk

/-! ## Nodes -/

/-- A node says the same by itself. -/
theorem label_reordered (h : Reordered t u) : t.label = u.label := by
  induction h with
  | trans _ _ ih ih' => exact ih.trans ih'
  | _ => rfl

theorem labels_reordered (h : Reordered t u) : t.labels = u.labels :=
  Multiset.coe_eq_coe.2 (map_preorder_perm label_reordered h)

theorem count_reordered (h : Reordered t u) : t.count = u.count := by
  rw [← card_labels, ← card_labels, labels_reordered h]

theorem depth_reordered (h : Reordered t u) : t.depth = u.depth := by
  induction h with
  | refl t => rfl
  | trans _ _ ih ih' => exact ih.trans ih'
  | perm h => rw [depth, depth, depthTerms_eq, depthTerms_eq, (h.map _).foldr_eq]
  | term before positive after _ ih =>
    simp only [depth, depthTerms_eq, List.map_append, List.map_cons, ih]
  | base exponent _ ih => simp only [depth, ih]
  | exponent base _ ih => simp only [depth, ih]
  | argument id _ ih => simp only [depth, ih]

/-! ## Variables -/

theorem variableLeaves_reordered (h : Reordered t u) :
    t.variableLeaves.Perm u.variableLeaves := by
  refine filterMap_preorder_perm (fun h => ?_) h
  induction h with
  | trans _ _ ih ih' => exact ih.trans ih'
  | _ => rfl

theorem evaluatesConstant_reordered (h : Reordered t u) (listed : String → Bool) :
    t.evaluatesConstant listed = u.evaluatesConstant listed := by
  rw [Bool.eq_iff_iff, evaluatesConstant_iff_leaves, evaluatesConstant_iff_leaves]
  simp only [(variableLeaves_reordered h).mem_iff]

theorem variableName?_reordered (h : Reordered t u) : t.variableName? = u.variableName? := by
  induction h with
  | trans _ _ ih ih' => exact ih.trans ih'
  | _ => rfl

theorem variableNames_reordered (h : Reordered t u) (name : Name) :
    name ∈ t.variableNames ↔ name ∈ u.variableNames := by
  rw [mem_variableNames, mem_variableNames,
    (filterMap_preorder_perm variableName?_reordered h).mem_iff]

theorem usage_reordered (h : Reordered t u) (name : Name) :
    t.usage.lookup name = u.usage.lookup name := by
  have hwalk := filterMap_preorder_perm variableName?_reordered h
  exact lookup_tally_perm ((t.occurrences_perm.trans hwalk).trans u.occurrences_perm.symm) name

/-! ## Building and validity -/

theorem Built.reordered (ht : t.Built) (h : Reordered t u) : u.Built := by
  induction h with
  | refl t => exact ht
  | trans _ _ ih ih' => exact ih' (ih ht)
  | perm h => exact built_seq fun t hmem => ht.term (h.mem_iff.2 hmem)
  | term before positive after _ ih =>
    refine built_seq fun s hs => ?_
    have hparts : ∀ s ∈ before ++ ⟨_, positive⟩ :: after, Built s.item := ht.parts
    rw [List.forall_mem_append, List.forall_mem_cons] at hparts
    rcases List.mem_append.1 hs with hs | hs
    · exact hparts.1 s hs
    · rcases List.mem_cons.1 hs with rfl | hs
      · exact ih hparts.2.1
      · exact hparts.2.2 s hs
  | base exponent _ ih => exact built_pow (ih ht.base) ht.exponent
  | exponent base _ ih => exact built_pow ht.base (ih ht.exponent)
  | argument id _ ih =>
    obtain ⟨⟨f, hf, rfl⟩, ha⟩ := ht.parts
    exact built_fn hf (ih ha)

theorem ownDefect?_reordered {t u : Tree Float} (h : Reordered t u) :
    t.ownDefect? = u.ownDefect? := by
  induction h with
  | trans _ _ ih ih' => exact ih.trans ih'
  | perm h => simp only [ownDefect?, h.isEmpty_eq]
  | term before positive after _ _ => simp [ownDefect?]
  | _ => rfl

theorem isValid_reordered {t u : Tree Float} (h : Reordered t u) : t.isValid = u.isValid := by
  have hdefects : ∀ t : Tree Float,
      t.isValid = true ↔ ∀ d ∈ t.preorder.map ownDefect?, d = none := by
    intro t
    rw [isValid_iff, List.forall_mem_map]
  rw [Bool.eq_iff_iff, hdefects, hdefects]
  simp only [(map_preorder_perm ownDefect?_reordered h).mem_iff]

/-! ## Exact values -/

/-- **The exact value does not depend on the order of terms.** -/
theorem exactValue?_reordered (R : Reading ν) (ρ : String → ℚ) (h : Reordered t u) :
    t.exactValue? R ρ = u.exactValue? R ρ := by
  induction h with
  | refl t => rfl
  | trans _ _ ih ih' => exact ih.trans ih'
  | perm h => exact exactValue?_perm h
  | term before positive after _ ih => exact exactValue?_term ih
  | base exponent _ ih => rw [exactValue?_pow, exactValue?_pow, ih]
  | exponent base _ ih => rw [exactValue?_pow, exactValue?_pow, ih]
  | argument id _ ih => rw [exactValue?_fn, exactValue?_fn, ih]

end Isolate.Tree
