import Isolate.Proofs.Tree.Built
import Isolate.Tree.Binding
import Mathlib.Data.List.Basic

/-!
# Assigning numbers to variables

Assigning a number to a name stores it on every variable leaf with the name, and leaves every other
node as it is (`withValue`).  In a built tree, nothing stops it on the way (`assign_ok`).

* `withValue_comm`, `withValue_withValue` - numbers for different names can be assigned in any
  order, and of two numbers for the same name the later one stays;
* `assigned` - a tree after some assignments;
* `getElem?_preorder_assigned` - its placeholders stay where they are.
-/

namespace Isolate.Tree

variable {ν : Type} {name : String} {x : ν}

mutual

/-- A tree with a number stored on the variable leaves with a name. -/
def withValue (name : String) (x : ν) : Tree ν → Tree ν
  | var n stored => var n (if n.isText name then some x else stored)
  | seq kind terms => seq kind (termsWithValue name x terms)
  | pow base exponent => pow (withValue name x base) (withValue name x exponent)
  | fn id argument => fn id (withValue name x argument)
  | t => t

/-- Some terms with a number stored on the variable leaves with a name. -/
def termsWithValue (name : String) (x : ν) : List (Signed (Tree ν)) → List (Signed (Tree ν))
  | [] => []
  | ⟨t, positive⟩ :: rest => ⟨withValue name x t, positive⟩ :: termsWithValue name x rest

end

@[simp] theorem withValue_var (n : Name) (stored : Option ν) :
    (var n stored).withValue name x = var n (if n.isText name then some x else stored) := rfl

theorem termsWithValue_eq (terms : List (Signed (Tree ν))) :
    termsWithValue name x terms = terms.map (·.map (withValue name x)) := by
  induction terms with
  | nil => rfl
  | cons t terms ih => rw [termsWithValue, ih, List.map_cons, Signed.map]

@[simp] theorem withValue_seq (kind : SeqKind) (terms : List (Signed (Tree ν))) :
    (seq kind terms).withValue name x = seq kind (terms.map (·.map (withValue name x))) := by
  rw [withValue, termsWithValue_eq]

@[simp] theorem withValue_pow (base exponent : Tree ν) :
    (pow base exponent).withValue name x
      = pow (base.withValue name x) (exponent.withValue name x) := rfl

@[simp] theorem withValue_fn (id : Int) (argument : Tree ν) :
    (fn id argument).withValue name x = fn id (argument.withValue name x) := rfl

/-! ## Assigning without fault -/

theorem assignTerms_ok {terms : List (Signed (Tree ν))}
    (h : ∀ t ∈ terms, t.item.assign name (.ok x) = (t.item.withValue name x, none)) :
    assignTerms name (.ok x) terms = (terms.map (·.map (withValue name x)), none) := by
  induction terms with
  | nil => rfl
  | cons t terms ih =>
    have ht : t.item.assign name (.ok x) = (t.item.withValue name x, none) :=
      h t (List.mem_cons_self ..)
    have hrest := ih fun u hu => h u (List.mem_cons_of_mem _ hu)
    rw [assignTerms, ht, hrest]
    rfl

/-- **A number is assigned without fault** to a name in a built tree. -/
theorem assign_ok {t : Tree ν} (ht : t.Built) (name : String) (x : ν) :
    t.assign name (.ok x) = (t.withValue name x, none) := by
  induction t with
  | var n stored =>
    rw [assign, withValue]
    split <;> rfl
  | seq kind terms ih =>
    rw [assign, assignTerms_ok fun t h => ih t h (ht.term h), withValue_seq]
  | pow base exponent ihb ihe =>
    rw [assign, ihb ht.base]
    dsimp only
    rw [ihe ht.exponent, withValue_pow]
  | fn id argument ih =>
    rw [assign, ih ht.argument]
    rfl
  | foreign d => exact ht.parts.elim
  | _ => rfl

/-- Storing a number keeps a tree built. -/
theorem Built.withValue {t : Tree ν} (ht : t.Built) : (t.withValue name x).Built := by
  induction t with
  | var n stored =>
    obtain ⟨text, rfl⟩ := ht.parts
    exact .var text _
  | seq kind terms ih =>
    rw [withValue_seq]
    refine built_seq fun t h => ?_
    obtain ⟨s, hs, rfl⟩ := List.mem_map.1 h
    exact ih s hs (ht.term hs)
  | pow base exponent ihb ihe => exact built_pow (ihb ht.base) (ihe ht.exponent)
  | fn id argument ih =>
    obtain ⟨⟨f, hf, rfl⟩, ha⟩ := ht.parts
    exact built_fn hf (ih ha)
  | _ => exact ht

/-! ## Two assignments -/

/-- Numbers for different names can be assigned in any order. -/
theorem withValue_comm {other : String} (hne : name ≠ other) (x y : ν) (t : Tree ν) :
    (t.withValue name x).withValue other y = (t.withValue other y).withValue name x := by
  induction t with
  | var n stored =>
    cases n with
    | text n =>
      by_cases hn : n = name
      · subst hn
        simp [hne]
      · simp [hn]
    | other d => simp [Name.isText, Name.text?]
  | seq kind terms ih =>
    simp only [withValue_seq, List.map_map]
    refine congrArg (seq kind) (List.map_congr_left fun t ht => ?_)
    simp [Signed.map, ih t ht]
  | pow base exponent ihb ihe => simp [ihb, ihe]
  | fn id argument ih => simp [ih]
  | _ => rfl

/-- Of two numbers for the same name the later one stays. -/
theorem withValue_withValue (name : String) (x y : ν) (t : Tree ν) :
    (t.withValue name x).withValue name y = t.withValue name y := by
  induction t with
  | var n stored =>
    simp only [withValue_var]
    split <;> rfl
  | seq kind terms ih =>
    simp only [withValue_seq, List.map_map]
    refine congrArg (seq kind) (List.map_congr_left fun t ht => ?_)
    simp [Signed.map, ih t ht]
  | pow base exponent ihb ihe => simp [ihb, ihe]
  | fn id argument ih => simp [ih]
  | _ => rfl

/-! ## Nodes -/

theorem children_withValue (t : Tree ν) :
    (t.withValue name x).children = t.children.map (withValue name x) := by
  cases t with
  | seq kind terms => simp [children, Signed.map, Function.comp_def]
  | var n stored => simp [children]
  | pow base exponent => simp [children]
  | _ => rfl

/-- Every node is changed in its place. -/
theorem preorder_withValue (t : Tree ν) :
    (t.withValue name x).preorder = t.preorder.map (withValue name x) := by
  induction t using induction_children with
  | node t ih =>
    rw [preorder_eq, preorder_eq t, List.map_cons, children_withValue, List.flatMap_map,
      List.map_flatMap]
    congr 1
    exact List.flatMap_congr ih

/-! ## Several assignments -/

/-- A tree after some numbers are assigned to names, one after the other. -/
def assigned (t : Tree ν) (each : List (String × ν)) : Tree ν :=
  each.foldl (fun t entry => (t.assign entry.1 (.ok entry.2)).1) t

@[simp] theorem assigned_nil (t : Tree ν) : t.assigned [] = t := rfl

theorem assigned_cons {t : Tree ν} (ht : t.Built) (name : String) (x : ν)
    (each : List (String × ν)) :
    t.assigned ((name, x) :: each) = (t.withValue name x).assigned each := by
  rw [assigned, List.foldl_cons, assign_ok ht]
  rfl

theorem Built.assigned {t : Tree ν} (ht : t.Built) (each : List (String × ν)) :
    (t.assigned each).Built := by
  induction each generalizing t with
  | nil => exact ht
  | cons entry each ih =>
    rw [assigned_cons ht]
    exact ih ht.withValue

/-- Placeholders stay as they are, whatever their name. -/
theorem getElem?_preorder_assigned {t : Tree ν} (ht : t.Built) (each : List (String × ν)) {i : Nat}
    {n : Name} (h : t.preorder[i]? = some (hole n)) :
    (t.assigned each).preorder[i]? = some (hole n) := by
  induction each generalizing t with
  | nil => exact h
  | cons entry each ih =>
    obtain ⟨name, x⟩ := entry
    rw [assigned_cons ht]
    refine ih ht.withValue ?_
    rw [preorder_withValue, List.getElem?_map, h]
    rfl

end Isolate.Tree
