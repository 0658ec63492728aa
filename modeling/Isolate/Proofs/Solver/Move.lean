import Isolate.Proofs.Tree.Label
import Isolate.Solver.Basic

/-!
# What one step does

A left-hand side is the target, is stuck, or lets one of its terms free.  Everything that is proved
of a step goes by these three cases, and everything about the third by `exists_of_freed`, which
names the sequence that is taken apart, the term that depends on the targets, and the terms that are
carried over.

* `target_of_arrived` - a step arrives only at a target;
* `mem_children_of_freed` - what comes free is a child of the old left-hand side;
* `conserved_of_freed` - what a tree has node by node, both sides together keep: the sequence that
  the left-hand side loses is the one that the right-hand side gains;
* `labels_of_freed` - so no node is lost or made up.
-/

namespace Isolate.Solver

variable {ν : Type}

/-- A step at the end changes nothing. -/
theorem step_of_finished {s : Solver ν} (h : s.isFinished = true) : s.step.1 = s := by
  simp [step, h]

/-- Any other step makes the move that the left-hand side allows. -/
theorem step_of_not_finished {s : Solver ν} (h : s.isFinished = false) :
    s.step.1 = s.after s.move := by
  simp [step, h]

theorem targets_step (s : Solver ν) : s.step.1.targets = s.targets := by
  cases hf : s.isFinished with
  | true => rw [step_of_finished hf]
  | false =>
    rw [step_of_not_finished hf]
    cases s.move <;> rfl

theorem maxSteps_step (s : Solver ν) : s.step.1.maxSteps = s.maxSteps := by
  cases hf : s.isFinished with
  | true => rw [step_of_finished hf]
  | false =>
    rw [step_of_not_finished hf]
    cases s.move <;> rfl

theorem isFinished_eq_false {s : Solver ν} :
    s.isFinished = false ↔ s.solved = false ∧ s.solvable = true := by
  simp [isFinished]

theorem target_of_arrived {s : Solver ν} (h : s.move = .arrived) :
    isTarget s.targets s.lhs = true := by
  unfold move at h
  split at h
  · rename_i name stored heq
    split at h
    · rename_i ht
      rw [heq]
      exact ht
    · exact absurd h (by simp)
  case h_4 kind terms heq =>
    unfold moveTerms at h
    split at h <;> exact absurd h (by simp)
  all_goals exact absurd h (by simp)

/-- A target is a variable leaf with one of the names. -/
theorem exists_of_isTarget {targets : List String} {t : Tree ν} (h : isTarget targets t = true) :
    ∃ name ∈ targets, ∃ stored, t = .var (.text name) stored := by
  cases t with
  | var n stored =>
    cases n with
    | text name => exact ⟨name, by simpa [isTarget] using h, stored, rfl⟩
    | other d => simp [isTarget, Name.text?] at h
  | _ => simp [isTarget] at h

/-! ## A term that comes free -/

/-- Terms of which exactly one depends on the targets, up to their order. -/
theorem terms_perm {targets : List String} {terms : List (Signed (Tree ν))}
    {dependent : Signed (Tree ν)} (h : terms.filter (!isKnown targets ·) = [dependent]) :
    terms.Perm (dependent :: terms.filter (isKnown targets)) := by
  have hp := (List.filter_append_perm (!isKnown targets ·) terms).symm
  rw [h] at hp
  simpa using hp

/-- What comes free is the one term of a sequence that depends on the targets; the others are
gathered on the right-hand side. -/
theorem exists_of_freed {s : Solver ν} {lhs rhs : Tree ν} (h : s.move = .freed lhs rhs) :
    ∃ kind terms dependent, s.lhs = .seq kind terms ∧
      terms.filter (!isKnown s.targets ·) = [dependent] ∧ lhs = dependent.item ∧
      rhs = gathered kind s.rhs dependent (terms.filter (isKnown s.targets)) := by
  unfold move at h
  split at h
  case h_4 kind terms heq =>
    unfold moveTerms at h
    split at h
    · exact absurd h (by simp)
    · rename_i dependent hd
      obtain ⟨rfl, rfl⟩ := Move.freed.inj h
      exact ⟨kind, terms, dependent, heq, hd, rfl, rfl⟩
    · exact absurd h (by simp)
  case h_1 => split at h <;> exact absurd h (by simp)
  all_goals exact absurd h (by simp)

theorem mem_children_of_freed {s : Solver ν} {lhs rhs : Tree ν} (h : s.move = .freed lhs rhs) :
    lhs ∈ s.lhs.children := by
  obtain ⟨kind, terms, dependent, hs, hd, rfl, _⟩ := exists_of_freed h
  have hmem : dependent ∈ terms := (List.mem_filter.1 (hd ▸ List.mem_singleton_self dependent)).1
  rw [hs]
  exact List.mem_map_of_mem hmem

/-- A quantity that a sequence has from its terms, and from its kind, is the same for both sides
together after a term has come free. -/
theorem conserved_of_freed {M : Type} [AddCommMonoid M] {f : Tree ν → M} {g : SeqKind → M}
    (hf : ∀ kind terms, f (.seq kind terms) = g kind + (terms.map fun t => f t.item).sum)
    {s : Solver ν} {lhs rhs : Tree ν} (h : s.move = .freed lhs rhs) :
    f lhs + f rhs = f s.lhs + f s.rhs := by
  obtain ⟨kind, terms, dependent, hs, hd, rfl, rfl⟩ := exists_of_freed h
  have hperm : (terms.map fun t => f t.item).sum
      = f dependent.item + ((terms.filter (isKnown s.targets)).map fun t => f t.item).sum := by
    rw [((terms_perm hd).map fun t => f t.item).sum_eq, List.map_cons, List.sum_cons]
  -- a carried term keeps its tree; only its sign may change
  have hcarried : ∀ known : List (Signed (Tree ν)),
      (known.map (carried dependent)).map (fun t => f t.item) = known.map fun t => f t.item := by
    intro known
    simp [carried, Function.comp_def]
  rw [hs, gathered, hf, hf, List.map_cons, List.sum_cons, hcarried, hperm]
  ac_rfl

/-- **Nothing is lost and nothing is made up.**  The two sides together keep their labels. -/
theorem labels_of_freed {s : Solver ν} {lhs rhs : Tree ν} (h : s.move = .freed lhs rhs) :
    lhs.labels + rhs.labels = s.lhs.labels + s.rhs.labels :=
  conserved_of_freed (f := Tree.labels) (g := fun kind => {.seq kind}) Tree.labels_seq h

end Isolate.Solver
