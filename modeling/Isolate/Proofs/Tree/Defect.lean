import Isolate.Proofs.Number.Numeral
import Isolate.Proofs.Tree.Valid
import Mathlib.Data.List.Lex

/-!
# Defects at their places

A tree from outside is reported defect by defect.  What can be wrong with a node by itself is said
once more here, without the search for it (`HasDefect`); where it is wrong is a path of steps down
from the root.  Paths come in lexicographic order, in which a node precedes whatever is below it and
a child precedes the ones further to the right.

* `Place.eq_of_pathText_append` - a path can be read off the text of an entry;
* `mem_defects_iff` - what is reported is what is wrong, at its path;
* `pairwise_defects` - the report goes by the order of the paths, so that it names no path twice;
* `defectTexts_exact` - **every defect is reported once, in order, at its place**.
-/

namespace Isolate

/-! ## Paths -/

namespace Place

/-- The index, among the children of a node, of the one that a step leads to. -/
def index : Place → Nat
  | term index => index
  | base => 0
  | exponent => 1
  | argument => 0

/-- Whether a path comes before another one: it ends first, or it turns to an earlier child where
the two part. -/
def Precedes : List Place → List Place → Prop := List.Lex fun p q => p.index < q.index

/-- No path comes before itself. -/
theorem not_precedes_self (path : List Place) : ¬ Precedes path path := by
  induction path with
  | nil => exact fun h => nomatch h
  | cons place path ih =>
    intro h
    cases h with
    | cons hrest => exact ih hrest
    | rel hlt => exact absurd hlt (Nat.lt_irrefl _)

/-- Where the text of a step ends can be told without looking at what follows. -/
theorem eq_of_text_append {p q : Place} {rest rest' : List Char}
    (h : p.text.toList ++ rest = q.text.toList ++ rest') : p = q ∧ rest = rest' := by
  cases p with
  | term i =>
    cases q with
    | term j =>
      have hdigits : Nat.toDigits 10 i ++ ']' :: rest = Nat.toDigits 10 j ++ ']' :: rest' := by
        simpa [text] using h
      -- the bracket is the first character that is no digit
      obtain ⟨hi, hrest⟩ :=
        Number.span_append (']' :: rest) (Number.isDigit_toDigits i) (by simp)
      obtain ⟨hj, hrest'⟩ :=
        Number.span_append (']' :: rest') (Number.isDigit_toDigits j) (by simp)
      rw [hdigits] at hi hrest
      have hvalue := congrArg (Nat.ofDigitChars 10 · 0) (hi.symm.trans hj)
      simp only [Nat.ofDigitChars_ten_toDigits] at hvalue
      exact ⟨congrArg term hvalue, List.tail_eq_of_cons_eq (hrest.symm.trans hrest')⟩
    | _ => simp [text] at h
  | base => cases q <;> simp_all [text]
  | exponent => cases q <;> simp_all [text]
  | argument => cases q <;> simp_all [text]

theorem toList_pathText (path : List Place) :
    (pathText path).toList = "root".toList ++ path.flatMap (·.text.toList) := by
  rw [pathText, String.toList_append, String.toList_join, List.flatMap_map]

/-- A step begins with a point. -/
theorem exists_text (p : Place) : ∃ rest, p.text.toList = '.' :: rest := by
  cases p <;> simp [text]

/-- **A path can be read off the text of an entry**, which goes on with a colon. -/
theorem eq_of_pathText_append {path path' : List Place} {message message' : String}
    (h : pathText path ++ ": " ++ message = pathText path' ++ ": " ++ message') :
    path = path' ∧ message = message' := by
  have hsteps : path.flatMap (·.text.toList) ++ ':' :: ' ' :: message.toList
      = path'.flatMap (·.text.toList) ++ ':' :: ' ' :: message'.toList := by
    simpa [toList_pathText] using congrArg String.toList h
  clear h
  induction path generalizing path' with
  | nil =>
    cases path' with
    | nil => simpa [String.toList_inj] using hsteps
    | cons q path' =>
      obtain ⟨rest, hq⟩ := q.exists_text
      simp [hq] at hsteps
  | cons p path ih =>
    cases path' with
    | nil =>
      obtain ⟨rest, hp⟩ := p.exists_text
      simp [hp] at hsteps
    | cons q path' =>
      rw [List.flatMap_cons, List.flatMap_cons, List.append_assoc, List.append_assoc] at hsteps
      obtain ⟨rfl, hrest⟩ := eq_of_text_append hsteps
      obtain ⟨rfl, hmessage⟩ := ih hrest
      exact ⟨rfl, hmessage⟩

end Place

/-! ## What nodes are made of -/

/-- A leaf without a name is one whose name is no text, or an empty one. -/
theorem Name.isProper_eq_false_iff {name : Name} :
    name.isProper = false ↔ ∀ text, name = .text text → text = "" := by
  cases name <;> simp [isProper]

/-- A double is finite exactly if it has a value. -/
theorem Binary64.isFinite_eq_false_iff {x : Float} :
    isFinite x = false ↔ rational? x = none := by
  unfold isFinite rational?
  cases classify x <;> simp

/-- The functions that cannot be evaluated are the ones without a rule. -/
theorem Builtin.any_hasRule_eq_false_iff {id : Int} :
    (ofCode? id).any hasRule = false ↔
      ∀ f : Builtin, f.hasRule = true → f.code ≠ id := by
  constructor
  · rintro h f hf rfl
    simp [hf] at h
  · intro h
    cases hf : ofCode? id with
    | none => rfl
    | some f =>
      by_contra hrule
      exact h f (by simpa using hrule) (code_of_ofCode? hf)

namespace Tree

variable {ν : Type}

/-! ## Steps down -/

/-- The steps down from a node, each with the child that it leads to. -/
def steps : Tree ν → List (Place × Tree ν)
  | seq _ terms => terms.zipIdx.map fun entry => (.term entry.2, entry.1.item)
  | pow base exponent => [(.base, base), (.exponent, exponent)]
  | fn _ argument => [(.argument, argument)]
  | _ => []

theorem mem_steps_iff {t c : Tree ν} {place : Place} :
    (place, c) ∈ t.steps ↔ t.childAt? place = some c := by
  cases t <;> cases place <;>
    simp [steps, childAt?, List.mem_zipIdx_iff_getElem?, eq_comm (a := c)]

/-- A step leads to a child. -/
theorem mem_children_of_mem_steps {t c : Tree ν} {place : Place} (h : (place, c) ∈ t.steps) :
    c ∈ t.children := by
  cases t with
  | seq kind terms =>
    obtain ⟨entry, hentry, hstep⟩ := List.mem_map.1 h
    obtain rfl : entry.1.item = c := congrArg Prod.snd hstep
    exact List.mem_map_of_mem (List.fst_mem_of_mem_zipIdx hentry)
  | pow base exponent =>
    simp only [steps, List.mem_cons, Prod.mk.injEq, List.not_mem_nil, or_false] at h
    rcases h with ⟨-, rfl⟩ | ⟨-, rfl⟩ <;> simp [children]
  | fn id argument =>
    simp only [steps, List.mem_singleton, Prod.mk.injEq] at h
    obtain ⟨-, rfl⟩ := h
    simp [children]
  | _ => exact absurd h (by simp [steps])

/-- The steps go from the first child to the last. -/
theorem pairwise_steps (t : Tree ν) : t.steps.Pairwise fun p q => p.1.index < q.1.index := by
  cases t with
  | seq kind terms =>
    have hindices : (terms.zipIdx.map Prod.snd).Pairwise (· < ·) := by
      rw [List.zipIdx_map_snd]
      exact List.pairwise_lt_range'
    exact List.pairwise_map.2 (List.pairwise_map.1 hindices)
  | pow base exponent => simp [steps, Place.index]
  | _ => simp [steps]

/-! ## Defects -/

/-- What is wrong with a node by itself. -/
inductive HasDefect : Tree Float → Defect → Prop
  /-- A plain value is no node. -/
  | notNode (found : Datum) : HasDefect (foreign found) (.notNode found)
  /-- A constant is infinite, or not a number. -/
  | notFinite {x : Float} : Binary64.rational? x = none → HasDefect (const x) (.notFinite x)
  /-- The name of a variable is no text, or an empty one. -/
  | noVariable {name : Name} (stored : Option Float) :
      (∀ text, name = .text text → text = "") → HasDefect (var name stored) .noName
  /-- The name of a placeholder is no text, or an empty one. -/
  | noHole {name : Name} :
      (∀ text, name = .text text → text = "") → HasDefect (hole name) .noName
  /-- A sequence has no terms. -/
  | noTerms (kind : SeqKind) : HasDefect (seq kind []) (.noTerms kind)
  /-- No function with a rule has the code. -/
  | noRule {id : Int} (argument : Tree Float) :
      (∀ f : Builtin, f.hasRule = true → f.code ≠ id) → HasDefect (fn id argument) (.noRule id)

theorem ownDefect?_eq_some_iff {t : Tree Float} {defect : Defect} :
    t.ownDefect? = some defect ↔ t.HasDefect defect := by
  constructor
  · intro h
    cases t with
    | const x =>
      simp only [ownDefect?, Option.ite_none_left_eq_some, Bool.not_eq_true,
        Option.some.injEq] at h
      obtain ⟨hx, rfl⟩ := h
      exact .notFinite (Binary64.isFinite_eq_false_iff.1 hx)
    | var name stored =>
      simp only [ownDefect?, Option.ite_none_left_eq_some, Bool.not_eq_true,
        Option.some.injEq] at h
      obtain ⟨hname, rfl⟩ := h
      exact .noVariable stored (Name.isProper_eq_false_iff.1 hname)
    | hole name =>
      simp only [ownDefect?, Option.ite_none_left_eq_some, Bool.not_eq_true,
        Option.some.injEq] at h
      obtain ⟨hname, rfl⟩ := h
      exact .noHole (Name.isProper_eq_false_iff.1 hname)
    | seq kind terms =>
      simp only [ownDefect?, Option.ite_none_right_eq_some, List.isEmpty_iff,
        Option.some.injEq] at h
      obtain ⟨rfl, rfl⟩ := h
      exact .noTerms kind
    | pow base exponent => exact absurd h (by simp [ownDefect?])
    | fn id argument =>
      simp only [ownDefect?, Option.ite_none_left_eq_some, Bool.not_eq_true,
        Option.some.injEq] at h
      obtain ⟨hrule, rfl⟩ := h
      exact .noRule argument (Builtin.any_hasRule_eq_false_iff.1 hrule)
    | foreign found =>
      obtain rfl := Option.some.inj h
      exact .notNode found
  · intro h
    cases h with
    | notNode found => rfl
    | notFinite hx => simp [ownDefect?, Binary64.isFinite_eq_false_iff.2 hx]
    | noVariable stored hname => simp [ownDefect?, Name.isProper_eq_false_iff.2 hname]
    | noHole hname => simp [ownDefect?, Name.isProper_eq_false_iff.2 hname]
    | noTerms kind => rfl
    | noRule argument hrule => simp [ownDefect?, Builtin.any_hasRule_eq_false_iff.2 hrule]

/-! ## The report -/

theorem termDefects_eq (index : Nat) (terms : List (Signed (Tree Float))) :
    termDefects index terms
      = (terms.zipIdx index).flatMap fun entry => under (.term entry.2) entry.1.item.defects := by
  induction terms generalizing index with
  | nil => rfl
  | cons t terms ih => rw [termDefects, ih, List.zipIdx_cons, List.flatMap_cons]

/-- The defect of a node comes first, then those of its children, child by child. -/
theorem defects_eq (t : Tree Float) :
    t.defects = (ownDefect? t).toList.map ([], ·)
      ++ t.steps.flatMap fun step => under step.1 step.2.defects := by
  cases t with
  | seq kind terms => rw [defects, termDefects_eq, steps, List.flatMap_map]
  | _ => simp [defects, steps]

theorem mem_under_iff {place : Place} {found : List (List Place × Defect)} {path : List Place}
    {defect : Defect} :
    (path, defect) ∈ under place found ↔ ∃ rest, path = place :: rest ∧ (rest, defect) ∈ found := by
  simp [under, eq_comm, and_comm]

/-- The defect of the node itself is the one with no steps to it. -/
theorem nil_mem_defects_iff {t : Tree Float} {defect : Defect} :
    ([], defect) ∈ t.defects ↔ t.HasDefect defect := by
  rw [defects_eq, List.mem_append, ← ownDefect?_eq_some_iff]
  simp [mem_under_iff]

/-- The defects below a step are those of the child that it leads to. -/
theorem cons_mem_defects_iff {t : Tree Float} {place : Place} {path : List Place}
    {defect : Defect} :
    (place :: path, defect) ∈ t.defects ↔
      ∃ c, t.childAt? place = some c ∧ (path, defect) ∈ c.defects := by
  rw [defects_eq, List.mem_append]
  simp [mem_under_iff, mem_steps_iff]

/-- **What is reported is what is wrong**, at its path. -/
theorem mem_defects_iff {t : Tree Float} {path : List Place} {defect : Defect} :
    (path, defect) ∈ t.defects ↔ ∃ u, t.follow? path = some u ∧ u.HasDefect defect := by
  induction path generalizing t with
  | nil => simp [nil_mem_defects_iff, follow?]
  | cons place path ih =>
    rw [cons_mem_defects_iff]
    simp only [ih, follow?, Option.bind_eq_some_iff]
    constructor
    · rintro ⟨c, hc, u, hu, hdefect⟩
      exact ⟨u, ⟨c, hc, hu⟩, hdefect⟩
    · rintro ⟨u, ⟨c, hc, hu⟩, hdefect⟩
      exact ⟨c, hc, u, hu, hdefect⟩

/-- **The report goes by the order of the paths.** -/
theorem pairwise_defects (t : Tree Float) :
    t.defects.Pairwise fun d e => Place.Precedes d.1 e.1 := by
  induction t using induction_children with
  | node t ih =>
    rw [defects_eq, List.pairwise_append]
    refine ⟨?own, List.pairwise_flatMap.2 ⟨?within, ?across⟩, ?down⟩
    case own => cases t.ownDefect? <;> simp
    case within =>
      -- below one step, the paths go on as in the report of the child
      rintro ⟨place, c⟩ hstep
      exact List.pairwise_map.2
        ((ih c (mem_children_of_mem_steps hstep)).imp fun hlt => List.Lex.cons hlt)
    case across =>
      -- below two steps, the paths part at once
      refine t.pairwise_steps.imp ?_
      rintro ⟨place, c⟩ ⟨place', c'⟩ hlt ⟨path, defect⟩ hd ⟨path', defect'⟩ hd'
      obtain ⟨rest, rfl, -⟩ := mem_under_iff.1 hd
      obtain ⟨rest', rfl, -⟩ := mem_under_iff.1 hd'
      exact List.Lex.rel hlt
    case down =>
      -- the path to the node itself has ended
      rintro ⟨path, defect⟩ hd ⟨path', defect'⟩ hd'
      obtain rfl : path = [] := by
        obtain ⟨own, -, hown⟩ := List.mem_map.1 hd
        exact (congrArg Prod.fst hown).symm
      obtain ⟨⟨place, c⟩, -, hbelow⟩ := List.mem_flatMap.1 hd'
      obtain ⟨rest', rfl, -⟩ := mem_under_iff.1 hbelow
      exact List.Lex.nil

/-- **Every defect is reported once, in order, at its place.**  What is reported is exactly what is
wrong with the nodes that can be reached, each with the path to it; the paths are in order, and none
comes twice; different paths have different texts, and an entry tells its path and its message.  All
this holds whichever function codes are entries of the table, and whichever are plain numbers. -/
theorem defectTexts_exact (isEntry : List Place → Bool) (t : Tree Float) :
    ∃ found : List (List Place × Defect),
      t.defectTexts isEntry
        = found.map (fun d => Place.pathText d.1 ++ ": " ++ d.2.text (isEntry d.1)) ∧
      (∀ path defect, (path, defect) ∈ found ↔
        ∃ u, t.follow? path = some u ∧ u.HasDefect defect) ∧
      (found.map Prod.fst).Pairwise Place.Precedes ∧
      (∀ path, ¬ Place.Precedes path path) ∧
      Function.Injective Place.pathText ∧
      Function.Injective fun entry : List Place × String =>
        Place.pathText entry.1 ++ ": " ++ entry.2 := by
  refine ⟨t.defects, rfl, fun _ _ => mem_defects_iff, List.pairwise_map.2 t.pairwise_defects,
    Place.not_precedes_self, ?paths, ?entries⟩
  case paths =>
    intro path path' h
    exact (Place.eq_of_pathText_append (congrArg (· ++ ": " ++ "") h)).1
  case entries =>
    rintro ⟨path, message⟩ ⟨path', message'⟩ h
    obtain ⟨rfl, rfl⟩ := Place.eq_of_pathText_append h
    rfl

-- a node with a defect of its own does not hide the ones below it; of the two codes without a rule,
-- the outer one is an entry of the table and the inner one a plain number
example :
    (fn 99 (seq .sum [⟨var (.text "") none, false⟩, ⟨hole (.text "a"), true⟩,
      ⟨fn Builtin.csch.code (fn Builtin.sech.code (foreign (.list []))), true⟩])).defectTexts
        (·.length < 3) =
      ["root: function 99 has no evaluation rule",
        "root.argument.terms[0]: empty name",
        "root.argument.terms[2]: function <FunctionId.CSCH: 17> has no evaluation rule",
        "root.argument.terms[2].argument: function 16 has no evaluation rule",
        "root.argument.terms[2].argument.argument: expected a Node, got list"] := by
  decide +kernel

end Tree

end Isolate
