import Isolate.Proofs.Tree.Built
import Isolate.Tree.Validity
import Isolate.Tree.Walk

/-!
# Valid trees

A tree is valid exactly if nothing is wrong with any of its nodes by itself (`isValid_iff`).  So a
valid tree has none of what the constructors refuse, and is `Built` (`built_of_isValid`): whoever
checks a tree from outside gets all that is known of the trees built here.
-/

namespace Isolate.Tree

theorem under_eq_nil_iff {place : Place} {found : List (List Place × Defect)} :
    under place found = [] ↔ found = [] := List.map_eq_nil_iff

theorem termDefects_eq_nil_iff {index : Nat} {terms : List (Signed (Tree Float))} :
    termDefects index terms = [] ↔ ∀ t ∈ terms, t.item.defects = [] := by
  induction terms generalizing index with
  | nil => simp [termDefects]
  | cons t terms ih =>
    rw [termDefects, List.append_eq_nil_iff, under_eq_nil_iff, ih, List.forall_mem_cons]

/-- A tree is valid exactly if its root has no defect of its own and its children are valid. -/
theorem isValid_iff_children {t : Tree Float} :
    t.isValid = true ↔ t.ownDefect? = none ∧ ∀ c ∈ t.children, c.isValid = true := by
  simp only [isValid, List.isEmpty_iff]
  cases t with
  | seq kind terms =>
    rw [defects, List.append_eq_nil_iff, termDefects_eq_nil_iff]
    simp [children]
  | pow base exponent =>
    rw [defects, List.append_eq_nil_iff, List.append_eq_nil_iff, under_eq_nil_iff, under_eq_nil_iff]
    simp [children]
  | fn id argument =>
    rw [defects, List.append_eq_nil_iff, under_eq_nil_iff]
    simp [children]
  | _ => simp [defects, children]

/-- **A tree is valid exactly if nothing is wrong with any of its nodes.** -/
theorem isValid_iff {t : Tree Float} :
    t.isValid = true ↔ ∀ c ∈ t.preorder, c.ownDefect? = none := by
  induction t using induction_children with
  | node t ih =>
    rw [isValid_iff_children, preorder_eq, List.forall_mem_cons]
    refine and_congr_right fun _ => ?_
    simp only [List.mem_flatMap, forall_exists_index, and_imp]
    constructor
    · intro h c u hu hc
      exact (ih u hu).1 (h u hu) c hc
    · intro h u hu
      exact (ih u hu).2 fun c hc => h c u hu hc

/-! ## What a valid tree is made of -/

/-- The name of a valid leaf is a text with a character in it. -/
theorem exists_of_isProper {name : Name}
    (h : (if name.isProper then none else some Defect.noName) = none) :
    ∃ text, text ≠ "" ∧ name = .text text := by
  cases name with
  | text text => exact ⟨text, by simpa [Name.isProper] using h, rfl⟩
  | other d => exact absurd h (by simp [Name.isProper])

/-- A function that is valid has a rule. -/
theorem exists_of_ownDefect?_fn {id : Int} {argument : Tree Float}
    (h : (fn id argument).ownDefect? = none) : ∃ f : Builtin, f.hasRule = true ∧ f.code = id := by
  rw [ownDefect?] at h
  cases hf : Builtin.ofCode? id with
  | none => simp [hf] at h
  | some f => exact ⟨f, by simpa [hf] using h, Builtin.code_of_ofCode? hf⟩

/-- **A valid tree is built.** -/
theorem built_of_isValid {t : Tree Float} (h : t.isValid = true) : t.Built := by
  induction t with
  | const value => exact .const value
  | var name stored =>
    obtain ⟨text, _, rfl⟩ := exists_of_isProper (isValid_iff_children.1 h).1
    exact .var text stored
  | hole name =>
    obtain ⟨text, _, rfl⟩ := exists_of_isProper (isValid_iff_children.1 h).1
    exact .hole text
  | seq kind terms ih =>
    exact built_seq fun t ht =>
      ih t ht ((isValid_iff_children.1 h).2 _ (List.mem_map_of_mem ht))
  | pow base exponent ihb ihe =>
    have hc := (isValid_iff_children.1 h).2
    exact built_pow (ihb (hc base (by simp [children]))) (ihe (hc exponent (by simp [children])))
  | fn id argument ih =>
    obtain ⟨hown, hc⟩ := isValid_iff_children.1 h
    obtain ⟨f, hf, rfl⟩ := exists_of_ownDefect?_fn hown
    exact built_fn hf (ih (hc argument (by simp [children])))
  | foreign d => exact absurd (isValid_iff_children.1 h).1 (by simp [ownDefect?])

/-- A sequence of terms, of which there are some, is valid if they are. -/
theorem isValid_seq {kind : SeqKind} {terms : List (Signed (Tree Float))} :
    (seq kind terms).isValid = true ↔ terms ≠ [] ∧ ∀ t ∈ terms, t.item.isValid = true := by
  rw [isValid_iff_children]
  simp [ownDefect?, children]

end Isolate.Tree
