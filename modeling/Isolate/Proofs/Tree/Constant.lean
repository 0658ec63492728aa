import Isolate.Proofs.Tree.Walk

/-!
# Trees that evaluate to a constant

A tree is taken to be constant where some names are listed, if each of its variables has a stored
value and is not listed (`evaluatesConstant_iff_leaves`).

* `evaluatesConstant_antitone`, `evaluatesConstant_union` - fewer names, and names listed together;
* `isConstantOver_eq_ok` - on a built tree, asking one node after the other gives an answer.
-/

namespace Isolate.Tree

variable {ν : Type} {listed : String → Bool}

/-- Whether a node by itself leaves a tree constant: it is no variable, or one that has a stored
value and is not listed. -/
def isSettled (listed : String → Bool) : Tree ν → Bool
  | var name stored => !name.text?.any listed && stored.isSome
  | _ => true

/-- A tree evaluates to a constant exactly if each of its nodes leaves it so. -/
theorem evaluatesConstant_eq_all (t : Tree ν) :
    t.evaluatesConstant listed = t.preorder.all (isSettled listed) := by
  induction t with
  | seq kind terms ih =>
    rw [Bool.eq_iff_iff, evaluatesConstant, termsEvaluateConstant_iff, preorder_eq]
    simp only [List.all_cons, isSettled, Bool.true_and, children, List.flatMap_map,
      List.all_flatMap]
    rw [List.all_eq_true]
    exact forall₂_congr fun t ht => by rw [ih t ht]
  | pow base exponent ihb ihe =>
    simp only [evaluatesConstant, ihb, ihe, preorder, List.all_cons, List.all_append, isSettled,
      Bool.true_and]
  | fn id argument ih =>
    simp only [evaluatesConstant, ih, preorder, List.all_cons, isSettled, Bool.true_and]
  | _ => simp [evaluatesConstant, preorder, isSettled]

/-- In other words, if each of its variables has a stored value and is not listed. -/
theorem evaluatesConstant_iff_leaves {t : Tree ν} :
    t.evaluatesConstant listed = true ↔
      ∀ leaf ∈ t.variableLeaves,
        leaf.2.isSome ∧ ∀ name, leaf.1 = .text name → listed name = false := by
  rw [evaluatesConstant_eq_all, List.all_eq_true]
  constructor
  · intro h leaf hleaf
    have hsettled := h _ (mem_variableLeaves.1 hleaf)
    rw [isSettled, Bool.and_eq_true] at hsettled
    refine ⟨hsettled.2, fun name hname => ?_⟩
    simpa [hname] using hsettled.1
  · intro h u hu
    cases u with
    | var name stored =>
      obtain ⟨hstored, hlisted⟩ := h (name, stored) (mem_variableLeaves.2 hu)
      cases name with
      | text name => simp [isSettled, hstored, hlisted name rfl]
      | other d => simp [isSettled, Name.text?, hstored]
    | _ => rfl

/-- Then no variable is without a stored value. -/
theorem not_mem_variableLeaves_of_constant {t : Tree ν} (h : t.evaluatesConstant listed = true)
    (name : Name) : (name, none) ∉ t.variableLeaves := by
  intro hleaf
  have hstored := (evaluatesConstant_iff_leaves.1 h _ hleaf).1
  exact absurd hstored (by simp)

/-- Fewer listed names leave more trees constant. -/
theorem evaluatesConstant_antitone {t : Tree ν} {more : String → Bool}
    (hsub : ∀ name, listed name = true → more name = true)
    (h : t.evaluatesConstant more = true) : t.evaluatesConstant listed = true := by
  rw [evaluatesConstant_iff_leaves] at h ⊢
  intro leaf hleaf
  refine ⟨(h leaf hleaf).1, fun name hname => ?_⟩
  have hmore : more name = false := (h leaf hleaf).2 name hname
  cases hl : listed name with
  | false => rfl
  | true => exact absurd (hsub name hl) (by simp [hmore])

/-- Where the names of two listings are listed together, a tree is constant exactly if it is so
under each. -/
theorem evaluatesConstant_union {t : Tree ν} (other : String → Bool) :
    t.evaluatesConstant (fun name => listed name || other name)
      = (t.evaluatesConstant listed && t.evaluatesConstant other) := by
  rw [Bool.eq_iff_iff, Bool.and_eq_true]
  constructor
  · intro h
    exact ⟨evaluatesConstant_antitone (fun name hname => by simp [hname]) h,
      evaluatesConstant_antitone (fun name hname => by simp [hname]) h⟩
  · rintro ⟨hl, ho⟩
    rw [evaluatesConstant_iff_leaves] at hl ho ⊢
    intro leaf hleaf
    refine ⟨(hl leaf hleaf).1, fun name hname => ?_⟩
    rw [Bool.or_eq_false_iff]
    exact ⟨(hl leaf hleaf).2 name hname, (ho leaf hleaf).2 name hname⟩

/-- A text can be looked up in every listing. -/
theorem Listing.has_text (listing : Listing) (name : String) :
    listing.has (.text name) = .ok (listing.holds name) := by
  cases listing <;> rfl

/-- **Asking one node after the other gives an answer** for a built tree, and the same one. -/
theorem isConstantOver_eq_ok {t : Tree ν} (ht : t.Built) (listing : Listing) :
    t.isConstantOver listing = .ok (t.evaluatesConstant listing.holds) := by
  rw [evaluatesConstant_eq_all]
  refine allM_eq_ok fun u hu => ?_
  cases u with
  | var name stored =>
    obtain ⟨text, rfl⟩ := (ht.preorder hu).parts
    simp only [Listing.has_text, ok_bind]
    rfl
  | foreign d => exact (ht.preorder hu).parts.elim
  | _ => rfl

end Isolate.Tree
