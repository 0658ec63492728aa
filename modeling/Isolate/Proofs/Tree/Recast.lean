import Isolate.Proofs.Tree.Built
import Isolate.Tree.Binding
import Mathlib.Data.List.Basic

/-!
# Trees with other numbers and names

A `Recasting` gives other numbers to constants, and other names and stored values to variable
leaves.  A tree that is recast keeps its shape, its functions and its placeholders.  The recastings
of interest are a `translation`, which changes every number by one function and renames the
variables, and `forgetting` what is stored for one name.

* `Respects` - a recasting keeps apart what matters when one variable is unknown;
* `evaluatesConstant_recast` - then it changes nothing about what is known;
* `built_recast_iff` - nor about how a tree can be built.
-/

namespace Isolate

variable {ν μ : Type}

/-- A name with its text changed. -/
def Name.rename (r : String → String) : Name → Name
  | text name => text (r name)
  | other value => other value

/-- Whether a text is one of a single name. -/
theorem Name.any_contains_singleton (n : Name) (name : String) :
    n.text?.any [name].contains = n.isText name := by
  cases n with
  | text n =>
    rw [Bool.eq_iff_iff]
    simp
  | other d => rfl

/-- Other numbers for constants, and other names and stored values for variable leaves. -/
structure Recasting (ν μ : Type) where
  number : ν → μ
  name : Name → Name
  stored : Name → Option ν → Option μ

namespace Recasting

/-- Every number changed by a function, and the variables renamed. -/
def translation (f : ν → μ) (r : String → String) : Recasting ν μ where
  number := f
  name := Name.rename r
  stored _ := Option.map f

/-- Nothing stored for one name any more. -/
def forgetting (name : String) : Recasting ν ν where
  number := id
  name := id
  stored n stored := if n.isText name then none else stored

/-- A recasting that turns one name, and no other, into a given one, and that leaves every other
variable with a value if it had one, and without if not. -/
structure Respects (c : Recasting ν μ) (name name' : String) : Prop where
  isText_eq : ∀ n, (c.name n).isText name' = n.isText name
  isSome_eq : ∀ n stored, n.isText name = false → (c.stored n stored).isSome = stored.isSome
  text_iff : ∀ n, (∃ text, c.name n = .text text) ↔ ∃ text, n = .text text

theorem respects_translation (f : ν → μ) {r : String → String} (hr : Function.Injective r)
    (name : String) : (translation f r).Respects name (r name) where
  isText_eq n := by
    cases n with
    | text n => simp [translation, Name.rename, hr.eq_iff]
    | other d => rfl
  isSome_eq _ stored _ := by cases stored <;> rfl
  text_iff n := by cases n <;> simp [translation, Name.rename]

theorem respects_forgetting (name : String) :
    (forgetting (ν := ν) name).Respects name name where
  isText_eq _ := rfl
  isSome_eq n stored hn := by simp [forgetting, hn]
  text_iff _ := Iff.rfl

end Recasting

namespace Tree

mutual

/-- A tree with other numbers and names. -/
def recast (c : Recasting ν μ) : Tree ν → Tree μ
  | const value => const (c.number value)
  | var name stored => var (c.name name) (c.stored name stored)
  | hole name => hole name
  | seq kind terms => seq kind (recastTerms c terms)
  | pow base exponent => pow (recast c base) (recast c exponent)
  | fn id argument => fn id (recast c argument)
  | foreign value => foreign value

/-- Some terms with other numbers and names. -/
def recastTerms (c : Recasting ν μ) : List (Signed (Tree ν)) → List (Signed (Tree μ))
  | [] => []
  | ⟨t, positive⟩ :: rest => ⟨recast c t, positive⟩ :: recastTerms c rest

end

variable {c : Recasting ν μ}

@[simp] theorem recast_var (name : Name) (stored : Option ν) :
    (var name stored).recast c = var (c.name name) (c.stored name stored) := rfl

theorem recastTerms_eq (terms : List (Signed (Tree ν))) :
    recastTerms c terms = terms.map (·.map (recast c)) := by
  induction terms with
  | nil => rfl
  | cons t terms ih => rw [recastTerms, ih, List.map_cons, Signed.map]

@[simp] theorem recast_seq (kind : SeqKind) (terms : List (Signed (Tree ν))) :
    (seq kind terms).recast c = seq kind (terms.map (·.map (recast c))) := by
  rw [recast, recastTerms_eq]

@[simp] theorem recast_pow (base exponent : Tree ν) :
    (pow base exponent).recast c = pow (base.recast c) (exponent.recast c) := rfl

@[simp] theorem recast_fn (id : Int) (argument : Tree ν) :
    (fn id argument).recast c = fn id (argument.recast c) := rfl

/-- **What is known stays known**, and nothing else gets known. -/
theorem evaluatesConstant_recast {name name' : String} (hc : c.Respects name name') (t : Tree ν) :
    (t.recast c).evaluatesConstant [name'].contains = t.evaluatesConstant [name].contains := by
  induction t with
  | var n stored =>
    simp only [recast_var, evaluatesConstant, Name.any_contains_singleton, hc.isText_eq]
    cases hn : n.isText name with
    | true => rfl
    | false => rw [hc.isSome_eq n stored hn]
  | seq kind terms ih =>
    rw [recast_seq, Bool.eq_iff_iff, evaluatesConstant, evaluatesConstant,
      termsEvaluateConstant_iff, termsEvaluateConstant_iff, List.forall_mem_map]
    exact forall₂_congr fun t ht => by rw [← ih t ht]; rfl
  | pow base exponent ihb ihe => rw [recast_pow, evaluatesConstant, evaluatesConstant, ihb, ihe]
  | fn id argument ih => rw [recast_fn, evaluatesConstant, evaluatesConstant, ih]
  | _ => rfl

/-- **A tree that is recast is built exactly if it was.** -/
theorem built_recast_iff {name name' : String} (hc : c.Respects name name') {t : Tree ν} :
    (t.recast c).Built ↔ t.Built := by
  induction t with
  | const value => exact iff_of_true (.const _) (.const value)
  | var n stored =>
    constructor
    · intro h
      obtain ⟨text, rfl⟩ := (hc.text_iff n).1 h.parts
      exact .var text stored
    · intro h
      obtain ⟨text, htext⟩ := (hc.text_iff n).2 h.parts
      rw [recast_var, htext]
      exact .var text _
  | hole n =>
    refine ⟨fun h => ?_, fun h => ?_⟩ <;>
    · obtain ⟨text, rfl⟩ := h.parts
      exact .hole text
  | seq kind terms ih =>
    rw [recast_seq]
    refine ⟨fun h => built_seq fun t ht => ?_, fun h => built_seq ?_⟩
    · exact (ih t ht).1 (h.term (List.mem_map_of_mem (f := Signed.map (recast c)) ht))
    · rw [List.forall_mem_map]
      exact fun t ht => (ih t ht).2 (h.term ht)
  | pow base exponent ihb ihe =>
    exact ⟨fun h => built_pow (ihb.1 h.base) (ihe.1 h.exponent),
      fun h => built_pow (ihb.2 h.base) (ihe.2 h.exponent)⟩
  | fn id argument ih =>
    refine ⟨fun h => ?_, fun h => ?_⟩
    · obtain ⟨⟨f, hf, rfl⟩, ha⟩ := h.parts
      exact built_fn hf (ih.1 ha)
    · obtain ⟨⟨f, hf, rfl⟩, ha⟩ := h.parts
      exact built_fn hf (ih.2 ha)
  | foreign d => exact iff_of_false (fun h => h.parts) fun h => h.parts

/-- Nothing is stored for a variable in what is known without it. -/
theorem recast_forgetting_of_constant {name : String} {t : Tree ν}
    (h : t.evaluatesConstant [name].contains = true) : t.recast (.forgetting name) = t := by
  induction t with
  | var n stored =>
    rw [evaluatesConstant, Name.any_contains_singleton, Bool.and_eq_true] at h
    have hn : n.isText name = false := by simpa using h.1
    simp [Recasting.forgetting, hn]
  | seq kind terms ih =>
    rw [evaluatesConstant, termsEvaluateConstant_iff] at h
    have hterms : ∀ t ∈ terms, t.map (recast (.forgetting name)) = t :=
      fun t ht => by rw [Signed.map, ih t ht (h t ht)]
    rw [recast_seq, List.map_congr_left hterms, List.map_id']
  | pow base exponent ihb ihe =>
    rw [evaluatesConstant, Bool.and_eq_true] at h
    rw [recast_pow, ihb h.1, ihe h.2]
  | fn id argument ih =>
    rw [recast_fn, ih h]
  | _ => rfl

end Tree

end Isolate
