import Isolate.Expression
import Isolate.Proofs.Solver.Attempt
import Isolate.Tree.Edit
import Mathlib.Data.List.Induction

/-!
# Texts that are kept

An expression is written once and what it is written as is kept, until the expression is told to
forget it or a variable is assigned to through it.  Changes made to the formula directly do not
reach what is kept.  So a writing recalls the formula as it was at the first writing since nothing
was kept, which is the formula as it is now if only values were stored meanwhile: stored values do
not show in a text.

* `Tree.text_bare`, `Tree.written_bare` - stored values do not show;
* `Tree.bare_changeAt` - assigning to variables directly changes stored values only;
* `Action`, `after` - what can be done with an expression and its formula, and a run of that;
* `Cut` - a run, cut where nothing was kept for the last time and at the first writing after that;
* `text_recalled` - **what is written is what was written first**.
-/

namespace Isolate

/-! ## Stored values do not show -/

namespace Tree

theorem oddName?_bare {ν : Type} (t : Tree ν) : t.bare.oddName? = t.oddName? := by
  cases t with
  | var name stored => cases name <;> rfl
  | hole name => cases name <;> rfl
  | _ => rfl

theorem termsText_bare {terms : List (Signed (Tree Float))}
    (h : ∀ t ∈ terms, t.item.bare.text = t.item.text) (kind : SeqKind) (first : Bool) :
    termsText kind first (terms.map (·.map bare)) = termsText kind first terms := by
  induction terms generalizing first with
  | nil => rfl
  | cons t terms ih =>
    obtain ⟨ht, hrest⟩ := List.forall_mem_cons.1 h
    rw [List.map_cons, Signed.map, termsText, termsText, ht, ih hrest]

/-- **Stored values do not show in the text** of a tree. -/
theorem text_bare (t : Tree Float) : t.bare.text = t.text := by
  induction t with
  | seq kind terms ih =>
    rw [bare, recast_seq, text, text]
    exact termsText_bare ih kind true
  | pow base exponent ihb ihe =>
    have hbare : (pow base exponent).bare = pow base.bare exponent.bare := rfl
    rw [hbare, text, text, operandText, operandText, oddName?_bare, oddName?_bare, ihb, ihe]
    rfl
  | fn id argument ih =>
    have hbare : (fn id argument).bare = fn id argument.bare := rfl
    rw [hbare, text, text, operandText, oddName?_bare, ih]
    rfl
  | _ => rfl

theorem written_bare (t : Tree Float) : t.bare.written = t.written := by
  have htext := t.text_bare
  cases t with
  | seq kind terms => exact congrArg (Except.map Name.text) htext
  | pow base exponent => exact congrArg (Except.map Name.text) htext
  | fn id argument => exact congrArg (Except.map Name.text) htext
  | _ => rfl

/-- The text of a tree is what it is written as, if that is a text. -/
theorem written_bind (t : Tree Float) : t.written.bind Name.written = t.text := by
  have hmap : (t.text.map Name.text).bind Name.written = t.text := by cases t.text <;> rfl
  cases t with
  | var name stored => rfl
  | hole name => rfl
  | const value => exact hmap
  | seq kind terms => exact hmap
  | pow base exponent => exact hmap
  | fn id argument => exact hmap
  | foreign found => exact hmap

theorem written_eq_of_bare {t u : Tree Float} (h : t.bare = u.bare) : t.written = u.written := by
  rw [← t.written_bare, h, u.written_bare]

/-! ## Changes to stored values -/

theorem bare_setChild {ν : Type} {t child u : Tree ν} {index : Nat}
    (hu : t.children[index]? = some u) (h : child.bare = u.bare) :
    (t.setChild index child).bare = t.bare := by
  cases t with
  | seq kind terms =>
    rw [setChild, bare, bare, recast_seq, recast_seq]
    congr 1
    rw [children, List.getElem?_map, Option.map_eq_some_iff] at hu
    obtain ⟨term, hterm, rfl⟩ := hu
    refine List.ext_getElem? fun i => ?_
    rw [List.getElem?_map, List.getElem?_map, List.getElem?_modify]
    split
    next hi =>
      rw [← hi, hterm]
      exact congrArg (some ∘ (Signed.mk · term.positive)) h
    next => rw [id_map']
  | pow base exponent =>
    rcases index with _ | _ | index
    · obtain rfl : base = u := by simpa [children] using hu
      exact congrArg (pow · exponent.bare) h
    · obtain rfl : exponent = u := by simpa [children] using hu
      exact congrArg (pow base.bare) h
    · simp [children] at hu
  | fn id argument =>
    rcases index with _ | index
    · obtain rfl : argument = u := by simpa [children] using hu
      exact congrArg (fn id) h
    · simp [children] at hu
  | _ => simp [children] at hu

/-- A node that is replaced by one that differs in stored values leaves the rest as it is. -/
theorem bare_replace {ν : Type} {t u v : Tree ν} {path : List Nat} (hu : t.subtree? path = some u)
    (h : v.bare = u.bare) : (t.replace v path).bare = t.bare := by
  induction path generalizing t with
  | nil =>
    obtain rfl : t = u := by simpa [subtree?] using hu
    exact h
  | cons index path ih =>
    rw [subtree?, Option.bind_eq_some_iff] at hu
    obtain ⟨child, hchild, hu⟩ := hu
    rw [replace, hchild]
    exact bare_setChild hchild (ih hu)

end Tree

/-- Whether a change to a node is the assignment of a value to variables. -/
def Change.isAssignment {ν : Type} : Change ν → Tree ν → Bool
  | assign _ _, _ => true
  | store _, .var _ _ => true
  | _, _ => false

namespace Tree

theorem bare_change {ν : Type} {t : Tree ν} {change : Change ν} (h : change.isAssignment t) :
    (t.change change).1.bare = t.bare := by
  cases change with
  | assign name value => exact bare_assign name value t
  | store value =>
    cases t with
    | var name stored => cases value <;> rfl
    | _ => cases h
  | addTerm term positive => cases h
  | patch patch => cases h

/-- **Assigning to variables directly changes stored values only.** -/
theorem bare_changeAt {ν : Type} {t u : Tree ν} {path : List Nat} {change : Change ν}
    (hu : t.subtree? path = some u) (h : change.isAssignment u) :
    (t.changeAt path change).1.bare = t.bare := by
  rw [changeAt, hu]
  exact bare_replace hu (bare_change h)

end Tree

namespace Expression

/-! ## Runs -/

/-- What can be done with an expression, or with its formula behind its back. -/
inductive Action where
  /-- The expression is written. -/
  | write
  /-- A variable is assigned to through the expression. -/
  | assign (name : String) (value : Except Fault Float)
  /-- The text is forgotten. -/
  | forget
  /-- The expression is evaluated, measured or copied, and the copy is put aside. -/
  | look
  /-- The expression is copied, and a copy takes its place. -/
  | copy
  /-- The node at a path of the formula is changed. -/
  | change (path : List Nat) (change : Change Float)
  /-- Another formula takes the place of the formula. -/
  | replace (root : Tree Float)

/-- An expression after an action. -/
def act (e : Expression) : Action → Expression
  | .write => e.written.2
  | .assign name value => (e.assign name value).1
  | .forget => e.forget
  | .look => e
  | .copy => e.clone.toOption.getD e
  | .change path change => e.withRoot (e.root.changeAt path change).1
  | .replace root => e.withRoot root

/-- An expression after some actions, from left to right. -/
def after (e : Expression) (actions : List Action) : Expression := actions.foldl act e

@[simp] theorem after_nil (e : Expression) : e.after [] = e := rfl

theorem after_cons (e : Expression) (a : Action) (actions : List Action) :
    e.after (a :: actions) = (e.act a).after actions := rfl

theorem after_append (e : Expression) (actions more : List Action) :
    e.after (actions ++ more) = (e.after actions).after more := List.foldl_append

/-- Whether an action leaves nothing kept: the text is forgotten, an assignment is not refused, or
a copy takes the place of the expression. -/
def empties (e : Expression) : Action → Bool
  | .assign name value => (e.assign name value).2.isNone
  | .forget => true
  | .copy => e.clone.toOption.isSome
  | _ => false

/-- Whether an action is a writing that gives something. -/
def gives (e : Expression) : Action → Bool
  | .write => e.written.1.toOption.any fun name => (keep name).isSome
  | _ => false

/-- Whether an action changes nothing in the formula directly but the values of variables. -/
def storesOnly (e : Expression) : Action → Bool
  | .change path change => (e.root.subtree? path).all change.isAssignment
  | .replace _ => false
  | _ => true

/-- A property of every action of a run, each at the expression that it finds. -/
def Throughout (p : Expression → Action → Prop) (e : Expression) : List Action → Prop
  | [] => True
  | a :: rest => p e a ∧ Throughout p (e.act a) rest

theorem throughout_append {p : Expression → Action → Prop} {e : Expression}
    {actions more : List Action} :
    Throughout p e (actions ++ more)
      ↔ Throughout p e actions ∧ Throughout p (e.after actions) more := by
  induction actions generalizing e with
  | nil => simp [Throughout]
  | cons a actions ih => rw [List.cons_append, Throughout, Throughout, ih, after_cons, and_assoc]

/-- A run, cut in three.  After `past` nothing is kept, since that is where a run begins or since
the last action empties the expression; nothing empties it later.  During `quiet` it is not written,
or in vain, and `rest` begins with the first writing that gives something. -/
structure Cut (e : Expression) (actions : List Action) where
  past : List Action
  quiet : List Action
  rest : List Action
  whole : past ++ quiet ++ rest = actions
  emptied : past = [] ∨ ∃ before a, past = before ++ [a] ∧ (e.after before).empties a
  notEmptied : Throughout (fun e a => ¬ e.empties a) (e.after past) (quiet ++ rest)
  inVain : Throughout (fun e a => ¬ e.gives a) (e.after past) quiet
  given : ∀ a rest', rest = a :: rest' → (e.after (past ++ quiet)).gives a

/-! ## One action -/

variable {e e' : Expression} {root : Tree Float} {a : Action} {name : Name}

theorem kept_ofTree (h : ofTree root = .ok e) : e.kept = none := by
  cases root with
  | foreign found => cases h
  | _ => cases h; rfl

theorem kept_clone (h : e.clone = .ok e') : e'.kept = none := by
  obtain ⟨root, -, hroot⟩ := bind_eq_ok_iff.1 h
  exact kept_ofTree hroot

theorem root_written (e : Expression) : e.written.2.root = e.root := by
  rw [written]
  split
  · rfl
  · split <;> rfl

theorem root_assign (e : Expression) (name : String) (value : Except Fault Float) :
    (e.assign name value).1.root = (e.root.assign name value).1 := by
  rw [assign]
  split
  next root hroot => rw [hroot]
  next root fault hroot => rw [hroot]

theorem written_of_kept (h : e.kept = some name) : e.written = (.ok name, e) := by rw [written, h]

theorem written_of_kept_eq_none (h : e.kept = none) : e.written.1 = e.root.written := by
  rw [written, h]
  cases e.root.written <;> rfl

/-- The text of an expression is what it is written as, if that is a text. -/
theorem text_eq (e : Expression) : e.text.1 = e.written.1.bind Name.written := rfl

theorem kept_of_empties (h : e.empties a) : (e.act a).kept = none := by
  cases a with
  | assign name value =>
    rw [empties, assign] at h
    rw [act, assign]
    split at h
    · rfl
    · cases h
  | forget => rfl
  | copy =>
    cases hclone : e.clone with
    | error fault => simp [empties, hclone, Except.toOption] at h
    | ok e' => simpa [act, hclone, Except.toOption] using kept_clone hclone
  | _ => cases h

/-- What is kept stays until the expression is emptied. -/
theorem kept_of_kept (hkept : e.kept = some name) (h : ¬ e.empties a) :
    (e.act a).kept = some name := by
  cases a with
  | write => rwa [act, written_of_kept hkept]
  | assign name value =>
    rw [empties, assign] at h
    rw [act, assign]
    split at h
    · exact absurd rfl h
    · exact hkept
  | forget => exact absurd rfl h
  | copy =>
    cases hclone : e.clone with
    | error fault => simpa [act, hclone, Except.toOption] using hkept
    | ok e' => simp [empties, hclone, Except.toOption] at h
  | _ => exact hkept

/-- Nothing is kept before a writing gives something. -/
theorem kept_of_inVain (hkept : e.kept = none) (h : ¬ e.gives a) : (e.act a).kept = none := by
  cases a with
  | write =>
    rw [gives, written_of_kept_eq_none hkept] at h
    rw [act, written, hkept]
    cases hroot : e.root.written with
    | error fault => exact hkept
    | ok name => simpa [hroot, Except.toOption] using h
  | assign name value =>
    rw [act, assign]
    split
    · rfl
    · exact hkept
  | forget => rfl
  | copy =>
    cases hclone : e.clone with
    | error fault => simpa [act, hclone, Except.toOption] using hkept
    | ok e' => simpa [act, hclone, Except.toOption] using kept_clone hclone
  | _ => exact hkept

/-- A name that is kept at all is kept as it is. -/
theorem keep_eq_some (h : (keep name).isSome) : keep name = some name := by
  unfold keep at h ⊢
  split <;> simp_all

/-- A writing that gives something keeps it. -/
theorem kept_of_gives (hkept : e.kept = none) (h : e.gives a) :
    ∃ name, e.root.written = .ok name ∧ (e.act a).kept = some name := by
  cases a with
  | write =>
    rw [gives, written_of_kept_eq_none hkept] at h
    rw [act, written, hkept]
    cases hroot : e.root.written with
    | error fault => simp [hroot, Except.toOption] at h
    | ok name => exact ⟨name, rfl, keep_eq_some (by simpa [hroot, Except.toOption] using h)⟩
  | _ => cases h

/-- An action that changes no more than values of variables leaves what the formula is written
as. -/
theorem root_written_act (hempties : ¬ e.empties a) (h : e.storesOnly a) :
    (e.act a).root.written = e.root.written := by
  cases a with
  | write => rw [act, root_written]
  | assign name value =>
    rw [act, root_assign]
    exact Tree.written_eq_of_bare (Tree.bare_assign name value e.root)
  | copy =>
    cases hclone : e.clone with
    | error fault => simp [act, hclone, Except.toOption]
    | ok e' => simp [empties, hclone, Except.toOption] at hempties
  | change path change =>
    rw [act, withRoot]
    cases hnode : e.root.subtree? path with
    | none => rw [Tree.changeAt, hnode]
    | some node =>
      have hassign : change.isAssignment node = true := by simpa [storesOnly, hnode] using h
      exact Tree.written_eq_of_bare (Tree.bare_changeAt hnode hassign)
  | replace root => cases h
  | _ => rfl

/-! ## Many actions -/

variable {actions : List Action}

theorem kept_after_inVain (hkept : e.kept = none)
    (h : Throughout (fun e a => ¬ e.gives a) e actions) : (e.after actions).kept = none := by
  induction actions generalizing e with
  | nil => exact hkept
  | cons a actions ih => exact ih (kept_of_inVain hkept h.1) h.2

theorem kept_after_kept (hkept : e.kept = some name)
    (h : Throughout (fun e a => ¬ e.empties a) e actions) :
    (e.after actions).kept = some name := by
  induction actions generalizing e with
  | nil => exact hkept
  | cons a actions ih => exact ih (kept_of_kept hkept h.1) h.2

theorem root_written_after (hempties : Throughout (fun e a => ¬ e.empties a) e actions)
    (h : Throughout (fun e a => e.storesOnly a) e actions) :
    (e.after actions).root.written = e.root.written := by
  induction actions generalizing e with
  | nil => rfl
  | cons a actions ih => exact (ih hempties.2 h.2).trans (root_written_act hempties.1 h.1)

/-- Every run can be cut: either its last action empties the expression, so that everything is
past, or the last action comes after a run that can be cut, and is the first writing to give
something or not. -/
theorem exists_cut (e : Expression) (actions : List Action) : Nonempty (e.Cut actions) := by
  induction actions using List.reverseRecOn with
  | nil =>
    exact ⟨{ past := [], quiet := [], rest := [], whole := rfl, emptied := .inl rfl
             notEmptied := trivial, inVain := trivial, given := by simp }⟩
  | append_singleton actions a ih =>
    by_cases hempties : (e.after actions).empties a = true
    · exact ⟨{ past := actions ++ [a], quiet := [], rest := [], whole := by simp
               emptied := .inr ⟨actions, a, rfl, hempties⟩
               notEmptied := trivial, inVain := trivial, given := by simp }⟩
    obtain ⟨past, quiet, rest, rfl, emptied, notEmptied, inVain, given⟩ := ih
    rw [List.append_assoc, after_append] at hempties
    have hsofar : Throughout (fun e a => ¬ e.empties a) (e.after past) (quiet ++ (rest ++ [a])) :=
      List.append_assoc .. ▸ throughout_append.2 ⟨notEmptied, hempties, trivial⟩
    cases rest with
    | cons b rest =>
      exact ⟨{ past, quiet, rest := b :: rest ++ [a], whole := by simp, emptied
               notEmptied := hsofar, inVain
               given := fun c rest' h => given c rest (by simp_all) }⟩
    | nil =>
      by_cases hgives : (e.after (past ++ quiet)).gives a = true
      · exact ⟨{ past, quiet, rest := [a], whole := by simp, emptied
                 notEmptied := hsofar, inVain
                 given := fun c rest' h => by simp_all }⟩
      · rw [after_append] at hgives
        exact ⟨{ past, quiet := quiet ++ [a], rest := [], whole := by simp, emptied
                 notEmptied := by simpa using hsofar
                 inVain := throughout_append.2 ⟨inVain, hgives, trivial⟩
                 given := by simp }⟩

/-- An expression is written as a formula is to be written, and its text is the text of that. -/
def Recalls (e : Expression) (t : Tree Float) : Prop :=
  e.written.1 = t.written ∧ e.text.1 = t.text

theorem recalls_iff {t : Tree Float} : e.Recalls t ↔ e.written.1 = t.written := by
  refine and_iff_left_of_imp fun h => ?_
  rw [text_eq, h, t.written_bind]

theorem recalls_root (h : e.kept = none) : e.Recalls e.root :=
  recalls_iff.2 (written_of_kept_eq_none h)

namespace Cut

variable (cut : e.Cut actions)

/-- The expression at the cut between what is quiet and the rest. -/
def first : Expression := e.after (cut.past ++ cut.quiet)

theorem after_eq : e.after actions = cut.first.after cut.rest := by
  rw [first, ← after_append, cut.whole]

theorem notEmptied_rest : Throughout (fun e a => ¬ e.empties a) cut.first cut.rest := by
  rw [first, after_append]
  exact (throughout_append.1 cut.notEmptied).2

theorem kept_first (hkept : e.kept = none) : cut.first.kept = none := by
  have hpast : (e.after cut.past).kept = none := by
    obtain hnil | ⟨before, a, happend, hempties⟩ := cut.emptied
    · rwa [hnil]
    · rw [happend, after_append]
      exact kept_of_empties hempties
  rw [first, after_append]
  exact kept_after_inVain hpast cut.inVain

theorem recalls (hkept : e.kept = none) : (e.after actions).Recalls cut.first.root := by
  rw [cut.after_eq]
  have hfirst := cut.kept_first hkept
  have hempties := cut.notEmptied_rest
  have hgiven := cut.given
  cases hrest : cut.rest with
  | nil => exact recalls_root hfirst
  | cons a rest =>
    obtain ⟨name, hname, hkept⟩ := kept_of_gives hfirst (hgiven a rest hrest)
    rw [hrest] at hempties
    have hlast := kept_after_kept hkept hempties.2
    rw [recalls_iff, after_cons, written_of_kept hlast, hname]

theorem recalls_now (hkept : e.kept = none)
    (h : Throughout (fun e a => e.storesOnly a) cut.first cut.rest) :
    (e.after actions).Recalls (e.after actions).root := by
  have hnow : (e.after actions).root.written = cut.first.root.written := by
    rw [cut.after_eq]
    exact root_written_after cut.notEmptied_rest h
  rw [recalls_iff, hnow, ← recalls_iff]
  exact cut.recalls hkept

end Cut

/-- **What is written is what was written first.**  However a run goes, an expression is written at
the end as its formula was to be written when it was written first, after nothing was kept for the
last time.  That is what the formula is to be written as now, if nothing but values of variables was
changed directly since, or if the last action leaves nothing kept. -/
theorem text_recalled {e₀ : Expression} (h : ofTree root = .ok e₀) (actions : List Action) :
    Nonempty (e₀.Cut actions)
      ∧ (∀ cut : e₀.Cut actions,
          (e₀.after actions).Recalls cut.first.root
          ∧ (Throughout (fun e a => e.storesOnly a) cut.first cut.rest →
              (e₀.after actions).Recalls (e₀.after actions).root))
      ∧ ∀ before a, actions = before ++ [a] → (e₀.after before).empties a →
          (e₀.after actions).Recalls (e₀.after actions).root := by
  have hkept := kept_ofTree h
  refine ⟨exists_cut e₀ actions,
    fun cut => ⟨cut.recalls hkept, fun hstores => cut.recalls_now hkept hstores⟩, ?_⟩
  rintro before a rfl hempties
  rw [after_append]
  exact recalls_root (kept_of_empties hempties)

/-- The expression `x + y`. -/
def plainSum : Expression where
  root := .seq .sum [⟨.var (.text "x") none, true⟩, ⟨.var (.text "y") none, true⟩]
  kept := none

/-- The expression is written, then a value is refused for `y`, and another one stored directly. -/
def storingRun : List Action :=
  [.write, .assign "y" (.error .undefined), .change [1] (.store (.ok 2))]

/-- Then `y` is renamed behind its back. -/
def renamingRun : List Action := storingRun ++ [.change [1] (.patch (.name (.text "z")))]

/-- The stored value does not show, and the new name does not either until the text is forgotten. -/
theorem text_renamingRun :
    (plainSum.after storingRun).text.1 = (plainSum.after storingRun).root.text
    ∧ (plainSum.after renamingRun).text.1 = .ok "(x)+(y)"
    ∧ (plainSum.after (renamingRun ++ [.forget])).text.1 = .ok "(x)+(z)" := by
  have hstart : ofTree plainSum.root = .ok plainSum := rfl
  let stored : plainSum.Cut storingRun :=
    { past := [], quiet := [], rest := storingRun, whole := rfl, emptied := .inl rfl
      notEmptied := ⟨by decide, by decide, by decide, trivial⟩, inVain := trivial
      given := fun a rest h => by cases h; decide }
  let renamed : plainSum.Cut renamingRun :=
    { past := [], quiet := [], rest := renamingRun, whole := rfl, emptied := .inl rfl
      notEmptied := ⟨by decide, by decide, by decide, by decide, trivial⟩, inVain := trivial
      given := fun a rest h => by cases h; decide }
  have hstores : Throughout (fun e a => e.storesOnly a) plainSum storingRun :=
    ⟨rfl, rfl, rfl, trivial⟩
  have hstored := ((text_recalled hstart storingRun).2.1 stored).2 hstores
  have hrenamed := ((text_recalled hstart renamingRun).2.1 renamed).1
  have hforgotten := (text_recalled hstart (renamingRun ++ [.forget])).2.2 _ _ rfl rfl
  exact ⟨hstored.2, hrenamed.2.trans rfl, hforgotten.2.trans rfl⟩

end Expression

end Isolate
