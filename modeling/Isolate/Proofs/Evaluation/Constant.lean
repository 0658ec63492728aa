import Isolate.Proofs.Evaluation.Stored

/-!
# What does not depend on listed names

A tree reads only the columns of its variables (`evaluate_congr`).  If it evaluates to a constant
where some names are listed, then no variable of it is listed, so that no column of a listed name
plays any part, and every variable has a stored value, so that no other column is needed either.

* `evaluate_eq_of_constant` - the columns of listed names are not read;
* `constant_independent` - **what is constant does not depend on the listed names**.
-/

namespace Isolate.Tree

variable {ν α : Type} {listed : String → Bool}

/-- **Only the columns of its variables matter to a tree**, whatever the operations do. -/
theorem evaluate_congr {K : Kernel ν α} {columns others : Columns α} {t : Tree ν}
    (h : ∀ leaf ∈ t.variableLeaves, ∀ name, leaf.1 = .text name → columns name = others name) :
    t.evaluate K columns = t.evaluate K others := by
  induction t with
  | var n stored =>
    cases n with
    | text name =>
      have hname : columns name = others name := h _ (List.mem_singleton_self _) name rfl
      simp [evaluate, lookUp, hname]
    | other d => rfl
  | seq kind terms ih =>
    rw [variableLeaves_seq] at h
    have hterms : evaluateTerms K columns terms = evaluateTerms K others terms :=
      evaluateTerms_congr fun t ht =>
        ih t ht fun leaf hleaf => h leaf (List.mem_flatMap.2 ⟨t, ht, hleaf⟩)
    rw [evaluate, evaluate, hterms]
  | pow base exponent ihb ihe =>
    rw [variableLeaves_pow] at h
    rw [evaluate, evaluate, ihb fun leaf hleaf => h leaf (List.mem_append_left _ hleaf),
      ihe fun leaf hleaf => h leaf (List.mem_append_right _ hleaf)]
  | fn id argument ih =>
    rw [variableLeaves_fn] at h
    rw [evaluate, evaluate, ih h]
  | _ => rfl

/-- What is constant does not read the columns of listed names. -/
theorem evaluate_eq_of_constant {K : Kernel ν α} {columns others : Columns α} {t : Tree ν}
    (ht : t.evaluatesConstant listed = true)
    (h : ∀ name, listed name = false → columns name = others name) :
    t.evaluate K columns = t.evaluate K others := by
  refine evaluate_congr fun leaf hleaf name hname => h name ?_
  exact (evaluatesConstant_iff_leaves.1 ht leaf hleaf).2 name hname

/-- **What is constant does not depend on the listed names.**  A built tree evaluates to a constant
where some names are listed exactly if each of its variables has a stored value and is not listed.
Then it has the same outcome, value or refusal, on any two maps of data that agree on all names that
are not listed; and on data for listed names only, it has a value, which is the one without any
data.  So listing fewer names keeps a tree constant, and listing the names of two listings together
asks for both. -/
theorem constant_independent {t : Tree Float} (ht : t.Built) (listed : String → Bool) :
    (t.evaluatesConstant listed = true ↔
      ∀ leaf ∈ t.variableLeaves,
        leaf.2.isSome ∧ ∀ name, leaf.1 = .text name → listed name = false) ∧
    (∀ listing : Listing,
      t.isConstantOver listing = .ok (t.evaluatesConstant listing.holds)) ∧
    (t.evaluatesConstant listed = true →
      (∀ data data' : Samples,
        (∀ name, listed name = false → data.lookup name = data'.lookup name) →
          t.valueOn data = t.valueOn data') ∧
      ∀ data : Samples, (∀ entry ∈ data, listed entry.1 = true) →
        ∃ g, t.valueOn data = .ok g ∧ t.valueOn [] = .ok g) ∧
    (∀ more : String → Bool, (∀ name, listed name = true → more name = true) →
      t.evaluatesConstant more = true → t.evaluatesConstant listed = true) ∧
    ∀ other : String → Bool,
      t.evaluatesConstant (fun name => listed name || other name)
        = (t.evaluatesConstant listed && t.evaluatesConstant other) := by
  refine ⟨evaluatesConstant_iff_leaves, isConstantOver_eq_ok ht, fun h => ?_,
    fun more hsub hmore => evaluatesConstant_antitone hsub hmore, evaluatesConstant_union⟩
  have hagree : ∀ data data' : Samples,
      (∀ name, listed name = false → data.lookup name = data'.lookup name) →
        t.valueOn data = t.valueOn data' := by
    intro data data' hdata
    refine evaluate_eq_of_constant h fun name hname => ?_
    rw [columns_table, columns_table, hdata name hname]
  refine ⟨hagree, fun data hdata => ?_⟩
  -- a name that is not listed has no data, just as there is none at all
  have hnone : ∀ name, listed name = false → data.lookup name = ([] : Samples).lookup name := by
    intro name hname
    rw [List.lookup_nil, List.lookup_eq_none_iff]
    intro entry hentry
    have hlisted : listed entry.1 = true := hdata entry hentry
    have hne : name ≠ entry.1 := by
      rintro rfl
      exact absurd hlisted (by simp [hname])
    simpa using hne
  obtain ⟨g, hg, _⟩ := exists_evaluate_of_constant Arithmetic.isTotalOn_doubles ht h
  have hempty : t.valueOn [] = .ok g := by
    rw [← hg]
    exact evaluate_congr fun _ _ _ _ => rfl
  exact ⟨g, (hagree data [] hnone).trans hempty, hempty⟩

/-- The product of a variable with a value and a placeholder, less a constant. -/
def scaledHole : Tree Float :=
  .seq .sum [⟨.seq .product [⟨.var (.text "y") (some 3), true⟩, ⟨.hole (.text "x"), true⟩], true⟩,
    ⟨.const 5, false⟩]

theorem built_scaledHole : scaledHole.Built := by
  refine built_seq ?_
  simp only [List.forall_mem_cons, List.not_mem_nil, false_imp_iff, implies_true, and_true]
  refine ⟨built_seq ?_, .const 5⟩
  simp only [List.forall_mem_cons, List.not_mem_nil, false_imp_iff, implies_true, and_true]
  exact ⟨.var "y" (some 3), .hole "x"⟩

/-- Only the variable `y` is read: data for `x` may be ragged or missing. -/
theorem constant_scaledHole :
    scaledHole.Built ∧ scaledHole.evaluatesConstant ["x", "z"].contains = true ∧
      scaledHole.valueOn [("x", .list [.null, .list []]), ("y", .list [.int 1, .int 2])]
        = scaledHole.valueOn [("y", .list [.int 1, .int 2]), ("z", .text "none")] ∧
      (∃ g, scaledHole.valueOn [("x", .list [.null, .list []])] = .ok g ∧
        scaledHole.valueOn [] = .ok g) ∧
      scaledHole.evaluatesConstant ["y"].contains = false := by
  obtain ⟨_, _, hdata, _⟩ := constant_independent built_scaledHole ["x", "z"].contains
  have hconstant : scaledHole.evaluatesConstant ["x", "z"].contains = true := by decide
  obtain ⟨hagree, hlisted⟩ := hdata hconstant
  refine ⟨built_scaledHole, hconstant, hagree _ _ ?_, hlisted _ (by decide), by decide⟩
  intro name hname
  have hx : (name == "x") = false := by
    rw [List.contains_cons, Bool.or_eq_false_iff] at hname
    exact hname.1
  have hz : (name == "z") = false := by
    simp only [List.contains_cons, Bool.or_eq_false_iff] at hname
    exact hname.2.1
  simp [List.lookup_cons, hx, hz]

end Isolate.Tree
