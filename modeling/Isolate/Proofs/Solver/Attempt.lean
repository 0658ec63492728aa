import Isolate.Proofs.Tree.Assign
import Isolate.Proofs.Tree.Recast
import Isolate.Proofs.Tree.Walk
import Isolate.Solver.Equation

/-!
# Assignments that may be refused

A value that is assigned may turn out to be unreadable.  The assignment goes from leaf to leaf, but
the first leaf that would take the value refuses it, and no leaf before that one has changed.  So
the whole tree, or the whole equation, is as it was (`AllOrNothing`), and of many calls only the
readable ones leave a trace.

* `Tree.assign_error` - an unreadable value changes nothing;
* `Tree.variableLeaves_attempted`, `Tree.bare_attempted` - what some calls make of the variable
  leaves, and of everything else;
* `attempts_all_or_nothing` - **a call assigns to all leaves with the name or to none**, and after
  some calls every leaf has the last value for its name that could be read.
-/

namespace Isolate

variable {ν : Type}

theorem Name.isText_eq_true_iff {n : Name} {name : String} :
    n.isText name = true ↔ n = .text name := by
  cases n <;> simp [Name.isText, Name.text?]

/-- Nothing stored for any variable. -/
def Recasting.bare : Recasting ν ν where
  number := id
  name := id
  stored _ _ := none

namespace Tree

/-- A tree without the stored values: its shape, its signs, its functions, its constants, its
placeholders and the names of its variables. -/
def bare (t : Tree ν) : Tree ν := t.recast .bare

/-- Whether some variable leaf has a name. -/
def mentions (name : String) (t : Tree ν) : Bool := t.variableLeaves.any (·.1.isText name)

variable {name : String} {fault : Fault} {x : ν}

theorem mentions_iff {t : Tree ν} :
    t.mentions name = true ↔ ∃ stored, (Name.text name, stored) ∈ t.variableLeaves := by
  simp [mentions, Name.isText_eq_true_iff]

/-- As many leaves have a name as are counted for it. -/
theorem countP_variableLeaves (name : String) (t : Tree ν) :
    t.variableLeaves.countP (·.1.isText name) = (t.usage.lookup (.text name)).getD 0 := by
  have hcount : t.occurrences.count (.text name)
      = t.variableLeaves.countP (·.1.isText name) := by
    rw [t.occurrences_perm.count_eq, ← map_fst_variableLeaves, List.count_eq_countP,
      List.countP_map]
    refine List.countP_congr fun leaf _ => ?_
    simp [Name.isText_eq_true_iff]
  rw [usage, lookup_tally, ← hcount]
  split
  · rfl
  · rename_i habsent
    exact List.count_eq_zero.2 (by simpa using habsent)

/-! ## One call -/

/-- Some terms refuse an unreadable value if one of them does. -/
theorem assignTerms_error {terms : List (Signed (Tree ν))}
    (h : ∀ t ∈ terms, t.item.assign name (.error fault)
      = (t.item, if t.item.mentions name then some fault else none)) :
    assignTerms name (.error fault) terms
      = (terms, if terms.any (·.item.mentions name) then some fault else none) := by
  induction terms with
  | nil => rfl
  | cons t terms ih =>
    obtain ⟨u, positive⟩ := t
    have ht : u.assign name (.error fault)
        = (u, if u.mentions name then some fault else none) := h ⟨u, positive⟩ (by simp)
    have hrest := ih fun u hu => h u (List.mem_cons_of_mem _ hu)
    rw [assignTerms, ht, hrest, List.any_cons]
    cases u.mentions name <;> simp

/-- **An unreadable value changes nothing**, and is refused if some leaf has the name. -/
theorem assign_error {t : Tree ν} (ht : t.Built) (name : String) (fault : Fault) :
    t.assign name (.error fault) = (t, if t.mentions name then some fault else none) := by
  induction t with
  | var n stored =>
    rw [assign, mentions, variableLeaves_var, List.any_cons, List.any_nil, Bool.or_false]
    split <;> simp_all
  | seq kind terms ih =>
    have hmentions : (seq kind terms).mentions name = terms.any (·.item.mentions name) := by
      simp [mentions, List.any_flatMap]
    rw [assign, assignTerms_error fun t h => ih t h (ht.term h), hmentions]
  | pow base exponent ihb ihe =>
    have hmentions : (pow base exponent).mentions name
        = (base.mentions name || exponent.mentions name) := by simp [mentions]
    rw [assign, ihb ht.base, ihe ht.exponent, hmentions]
    cases base.mentions name <;> simp
  | fn id argument ih =>
    have hmentions : (fn id argument).mentions name = argument.mentions name := by simp [mentions]
    rw [assign, ih ht.argument, hmentions]
  | foreign d => exact ht.parts.elim
  | _ => rfl

theorem variableLeaves_withValue (t : Tree ν) :
    (t.withValue name x).variableLeaves
      = t.variableLeaves.map fun leaf =>
          if leaf.1.isText name then (leaf.1, some x) else leaf := by
  rw [variableLeaves, preorder_withValue, List.filterMap_map, variableLeaves, List.map_filterMap]
  refine List.filterMap_congr fun u _ => ?_
  cases u with
  | var n stored => cases hn : n.isText name <;> simp [hn]
  | seq kind terms => simp
  | _ => rfl

theorem bare_withValue (t : Tree ν) : (t.withValue name x).bare = t.bare := by
  induction t with
  | seq kind terms ih =>
    simp only [bare, withValue_seq, recast_seq, List.map_map] at ih ⊢
    refine congrArg (seq kind) (List.map_congr_left fun t ht => ?_)
    simp [Signed.map, ih t ht]
  | pow base exponent ihb ihe => simp_all [bare]
  | fn id argument ih => simp_all [bare]
  | _ => rfl

/-- One call stores what can be read of its value, on the leaves with its name. -/
def read? (n : Name) (call : String × Except Fault ν) : Option ν :=
  if n.isText call.1 then call.2.toOption else none

theorem variableLeaves_assign {t : Tree ν} (ht : t.Built) (call : String × Except Fault ν) :
    (t.assign call.1 call.2).1.variableLeaves
      = t.variableLeaves.map fun leaf => (leaf.1, (read? leaf.1 call).or leaf.2) := by
  obtain ⟨name, value⟩ := call
  cases value with
  | ok x =>
    rw [assign_ok ht, variableLeaves_withValue]
    refine List.map_congr_left fun leaf _ => ?_
    cases hn : leaf.1.isText name <;> simp [read?, hn, Except.toOption]
  | error fault =>
    rw [assign_error ht]
    simp [read?, Except.toOption]

theorem bare_assignTerms {value : Except Fault ν} {terms : List (Signed (Tree ν))}
    (h : ∀ t ∈ terms, (t.item.assign name value).1.bare = t.item.bare) :
    (assignTerms name value terms).1.map (·.map bare) = terms.map (·.map bare) := by
  induction terms with
  | nil => rfl
  | cons t terms ih =>
    obtain ⟨u, positive⟩ := t
    obtain ⟨hu, hrest⟩ := List.forall_mem_cons.1 h
    rw [assignTerms]
    split
    next u' fault hassign =>
      rw [hassign] at hu
      exact congrArg (Signed.mk · positive :: terms.map (·.map bare)) hu
    next u' hassign =>
      rw [hassign] at hu
      exact congrArg₂ (Signed.mk · positive :: ·) hu (ih hrest)

/-- **A call changes stored values only**, whatever the tree, and whether it is refused or not. -/
theorem bare_assign (name : String) (value : Except Fault ν) (t : Tree ν) :
    (t.assign name value).1.bare = t.bare := by
  induction t with
  | var n stored =>
    simp only [assign]
    split
    · cases value <;> rfl
    · rfl
  | seq kind terms ih =>
    rw [assign, bare, recast_seq, bare, recast_seq]
    exact congrArg (seq kind) (bare_assignTerms ih)
  | pow base exponent ihb ihe =>
    rw [assign]
    split
    next base' fault hassign =>
      rw [hassign] at ihb
      exact congrArg (pow · exponent.bare) ihb
    next base' hassign =>
      rw [hassign] at ihb
      exact congrArg₂ pow ihb ihe
  | fn id argument ih => exact congrArg (fn id) ih
  | _ => rfl

theorem Built.assign {t : Tree ν} (ht : t.Built) (call : String × Except Fault ν) :
    (t.assign call.1 call.2).1.Built := by
  obtain ⟨name, value⟩ := call
  cases value with
  | ok x =>
    rw [assign_ok ht]
    exact ht.withValue
  | error fault => rwa [assign_error ht]

/-! ## Many calls -/

/-- A tree after some calls, refused or not, each with a name and what reading its value gave. -/
def attempted (t : Tree ν) (each : List (String × Except Fault ν)) : Tree ν :=
  each.foldl (fun t call => (t.assign call.1 call.2).1) t

/-- The last value for a name that could be read. -/
def lastRead? (each : List (String × Except Fault ν)) (n : Name) : Option ν :=
  each.reverse.findSome? (read? n)

theorem lastRead?_cons (call : String × Except Fault ν) (each : List (String × Except Fault ν))
    (n : Name) : lastRead? (call :: each) n = (lastRead? each n).or (read? n call) := by
  rw [lastRead?, List.reverse_cons, List.findSome?_append, List.findSome?_singleton, lastRead?]

theorem Built.attempted {t : Tree ν} (ht : t.Built) (each : List (String × Except Fault ν)) :
    (t.attempted each).Built := by
  induction each generalizing t with
  | nil => exact ht
  | cons call each ih => exact ih (ht.assign call)

/-- **Every leaf has the last value for its name that could be read**, or what it had before. -/
theorem variableLeaves_attempted {t : Tree ν} (ht : t.Built)
    (each : List (String × Except Fault ν)) :
    (t.attempted each).variableLeaves
      = t.variableLeaves.map fun leaf => (leaf.1, (lastRead? each leaf.1).or leaf.2) := by
  induction each generalizing t with
  | nil => simp [attempted, lastRead?]
  | cons call each ih =>
    have hrest : t.attempted (call :: each) = (t.assign call.1 call.2).1.attempted each := rfl
    rw [hrest, ih (ht.assign call), variableLeaves_assign ht, List.map_map]
    refine List.map_congr_left fun leaf _ => ?_
    simp [lastRead?_cons, Option.or_assoc]

/-- Nothing else changes. -/
theorem bare_attempted {t : Tree ν} (ht : t.Built) (each : List (String × Except Fault ν)) :
    (t.attempted each).bare = t.bare := by
  induction each generalizing t with
  | nil => rfl
  | cons call each ih => exact (ih (ht.assign call)).trans (bare_assign call.1 call.2 t)

end Tree

/-! ## Equations -/

namespace Equation

variable {e : Equation ν}

/-- An equation after some calls, whether they are refused or not. -/
def attempted (e : Equation ν) (each : List (String × Except Fault ν)) : Equation ν :=
  each.foldl (fun e call => (e.assign call.1 call.2).1) e

theorem assign_ok (hl : e.lhs.Built) (hr : e.rhs.Built) (name : String) (x : ν) :
    e.assign name (.ok x) = (⟨e.lhs.withValue name x, e.rhs.withValue name x⟩, none) := by
  rw [assign, Tree.assign_ok hl, Tree.assign_ok hr]

theorem assign_error (hl : e.lhs.Built) (hr : e.rhs.Built) (name : String) (fault : Fault) :
    e.assign name (.error fault)
      = (e, if e.lhs.mentions name || e.rhs.mentions name then some fault else none) := by
  rw [assign, Tree.assign_error hl, Tree.assign_error hr]
  cases e.lhs.mentions name <;> simp

/-- Since a call that is refused on one side would have changed nothing on the other one, either
side goes its own way. -/
theorem attempted_eq (hl : e.lhs.Built) (hr : e.rhs.Built)
    (each : List (String × Except Fault ν)) :
    e.attempted each = ⟨e.lhs.attempted each, e.rhs.attempted each⟩ := by
  induction each generalizing e with
  | nil => rfl
  | cons call each ih =>
    have hone : (e.assign call.1 call.2).1
        = ⟨(e.lhs.assign call.1 call.2).1, (e.rhs.assign call.1 call.2).1⟩ := by
      obtain ⟨name, value⟩ := call
      cases value with
      | ok x => rw [assign_ok hl hr, Tree.assign_ok hl, Tree.assign_ok hr]
      | error fault => rw [assign_error hl hr, Tree.assign_error hl, Tree.assign_error hr]
    have hrest : e.attempted (call :: each) = (e.assign call.1 call.2).1.attempted each := rfl
    rw [hrest, hone, ih (hl.assign call) (hr.assign call)]
    rfl

end Equation

/-! ## All or nothing -/

/-- What a call makes of some trees, the sides of an equation or a single tree: it assigns to all
leaves with the name, or to none. -/
structure AllOrNothing (name : String) (value : Except Fault ν) (old new : List (Tree ν))
    (refused : Option Fault) : Prop where
  /-- It is refused exactly if the value is unreadable and some leaf has the name. -/
  refused_iff : ∀ fault, refused = some fault ↔
    value = .error fault ∧ ∃ t ∈ old, ∃ stored, (Name.text name, stored) ∈ t.variableLeaves
  /-- If the value is unreadable, every tree is as it was. -/
  nothing : ∀ fault, value = .error fault → new = old
  /-- If it is not, all leaves with the name have it, and the other ones what they had. -/
  all : ∀ x, value = .ok x → new.map (·.variableLeaves) = old.map fun t =>
    t.variableLeaves.map fun leaf => if leaf.1.isText name then (leaf.1, some x) else leaf
  /-- The leaves with the name are as many as are counted for it. -/
  counted : ∀ t ∈ old,
    t.variableLeaves.countP (·.1.isText name) = (t.usage.lookup (.text name)).getD 0
  /-- Only stored values change. -/
  frame : new.map (·.bare) = old.map (·.bare)

namespace AllOrNothing

/-- A value that can be read, stored on all leaves with the name. -/
theorem ok (name : String) (x : ν) (sides : List (Tree ν)) :
    AllOrNothing name (.ok x) sides (sides.map (Tree.withValue name x)) none where
  refused_iff fault := by simp
  nothing fault h := nomatch h
  all y h := by
    obtain rfl := Except.ok.inj h
    rw [List.map_map]
    exact List.map_congr_left fun t _ => t.variableLeaves_withValue
  counted t _ := t.countP_variableLeaves name
  frame := by
    rw [List.map_map]
    exact List.map_congr_left fun t _ => t.bare_withValue

/-- A value that cannot be read, and no tree changed. -/
theorem error (name : String) (fault : Fault) (sides : List (Tree ν)) :
    AllOrNothing name (.error fault) sides sides
      (if sides.any (·.mentions name) then some fault else none) where
  refused_iff other := by
    simp only [Option.ite_none_right_eq_some, List.any_eq_true, Tree.mentions_iff,
      Option.some.injEq, Except.error.injEq]
    exact and_comm
  nothing other _ := rfl
  all x h := nomatch h
  counted t _ := t.countP_variableLeaves name
  frame := rfl

/-- A call on a tree. -/
theorem tree {t : Tree ν} (ht : t.Built) (name : String) (value : Except Fault ν) :
    AllOrNothing name value [t] [(t.assign name value).1] (t.assign name value).2 := by
  cases value with
  | ok x =>
    rw [Tree.assign_ok ht]
    exact ok name x [t]
  | error fault =>
    rw [Tree.assign_error ht]
    simpa using error name fault [t]

/-- A call on an equation. -/
theorem equation {e : Equation ν} (hl : e.lhs.Built) (hr : e.rhs.Built) (name : String)
    (value : Except Fault ν) :
    AllOrNothing name value [e.lhs, e.rhs]
      [(e.assign name value).1.lhs, (e.assign name value).1.rhs] (e.assign name value).2 := by
  cases value with
  | ok x =>
    rw [Equation.assign_ok hl hr]
    exact ok name x [e.lhs, e.rhs]
  | error fault =>
    rw [Equation.assign_error hl hr]
    simpa using error name fault [e.lhs, e.rhs]

end AllOrNothing

/-- **A call assigns to all leaves with the name, or to none.**  So it does after any calls, refused
or not, in a tree and in an equation; and what these calls leave on a leaf is the last value for its
name that could be read, or what was stored before if there is none. -/
theorem attempts_all_or_nothing :
    (∀ t : Tree ν, t.Built → ∀ each : List (String × Except Fault ν),
      let now := t.attempted each
      (∀ name value,
        AllOrNothing name value [now] [(now.assign name value).1] (now.assign name value).2) ∧
      now.variableLeaves
        = t.variableLeaves.map (fun leaf => (leaf.1, (Tree.lastRead? each leaf.1).or leaf.2)) ∧
      now.bare = t.bare) ∧
    ∀ e : Equation ν, e.lhs.Built → e.rhs.Built → ∀ each : List (String × Except Fault ν),
      let now := e.attempted each
      (∀ name value,
        AllOrNothing name value [now.lhs, now.rhs]
          [(now.assign name value).1.lhs, (now.assign name value).1.rhs]
          (now.assign name value).2) ∧
      [now.lhs, now.rhs].map (·.variableLeaves)
        = [e.lhs, e.rhs].map (fun t =>
            t.variableLeaves.map fun leaf => (leaf.1, (Tree.lastRead? each leaf.1).or leaf.2)) ∧
      [now.lhs, now.rhs].map (·.bare) = [e.lhs, e.rhs].map (·.bare) := by
  constructor
  · intro t ht each now
    exact ⟨AllOrNothing.tree (ht.attempted each), Tree.variableLeaves_attempted ht each,
      Tree.bare_attempted ht each⟩
  · intro e hl hr each now
    have hnow : now = ⟨e.lhs.attempted each, e.rhs.attempted each⟩ :=
      Equation.attempted_eq hl hr each
    rw [hnow]
    refine ⟨AllOrNothing.equation (hl.attempted each) (hr.attempted each), ?leaves, ?frame⟩
    case leaves =>
      simp only [List.map_cons, List.map_nil, Tree.variableLeaves_attempted hl each,
        Tree.variableLeaves_attempted hr each]
    case frame =>
      simp only [List.map_cons, List.map_nil, Tree.bare_attempted hl each,
        Tree.bare_attempted hr each]

/-- The equation `x + x - sin(x) = y * x`, where the second `x` is a placeholder. -/
def fourNames : Equation Int :=
  ⟨.seq .sum [⟨.var (.text "x") none, true⟩, ⟨.hole (.text "x"), true⟩,
      ⟨.fn Builtin.sin.code (.var (.text "x") none), false⟩],
    .seq .product [⟨.var (.text "y") (some 1), true⟩, ⟨.var (.text "x") (some 2), true⟩]⟩

theorem built_fourNames : fourNames.lhs.Built ∧ fourNames.rhs.Built := by
  refine ⟨Tree.built_seq ?_, Tree.built_seq ?_⟩ <;>
    simp only [List.forall_mem_cons, List.not_mem_nil, false_imp_iff, implies_true, and_true]
  · exact ⟨.var "x" none, .hole "x", Tree.built_fn rfl (.var "x" none)⟩
  · exact ⟨.var "y" (some 1), .var "x" (some 2)⟩

/-- Calls that are refused in between leave no trace.  A value that cannot be read is refused for
`y`, and the left-hand side, which is gone through first, stays as it is. -/
theorem attempts_fourNames :
    let unreadable : Except Fault Int := .error (.notNumeral "abc")
    let each := [("x", .ok 3), ("y", .ok 4), ("x", unreadable), ("z", unreadable), ("y", .ok 5),
      ("y", unreadable)]
    let now := fourNames.attempted each
    (fourNames.lhs.Built ∧ fourNames.rhs.Built) ∧
      (fourNames.lhs.attempted each).variableLeaves
        = [(.text "x", some 3), (.text "x", some 3)] ∧
      [now.lhs, now.rhs].map (·.variableLeaves)
        = [[(.text "x", some 3), (.text "x", some 3)], [(.text "y", some 5), (.text "x", some 3)]] ∧
      (now.assign "y" unreadable).2 = some (.notNumeral "abc") ∧
      [(now.assign "y" unreadable).1.lhs, (now.assign "y" unreadable).1.rhs]
        = [now.lhs, now.rhs] := by
  intro unreadable each now
  obtain ⟨hl, hr⟩ := built_fourNames
  obtain ⟨htree, hequation⟩ := @attempts_all_or_nothing Int
  obtain ⟨-, hleaves, -⟩ := htree fourNames.lhs hl each
  obtain ⟨hcall, hsides, -⟩ := hequation fourNames hl hr each
  have hrun : fourNames.attempted each = now := rfl
  rw [hrun] at hcall hsides
  have hy := hcall "y" unreadable
  have hleft : (fourNames.lhs.attempted each).variableLeaves
      = [(.text "x", some 3), (.text "x", some 3)] := hleaves.trans rfl
  have hnow : [now.lhs, now.rhs].map (·.variableLeaves)
      = [[(.text "x", some 3), (.text "x", some 3)],
        [(.text "y", some 5), (.text "x", some 3)]] := hsides.trans rfl
  have hright : now.rhs.variableLeaves = [(.text "y", some 5), (.text "x", some 3)] :=
    List.head_eq_of_cons_eq (List.tail_eq_of_cons_eq hnow)
  have hleaf : (.text "y", some 5) ∈ now.rhs.variableLeaves := by simp [hright]
  have hmem : now.rhs ∈ [now.lhs, now.rhs] := by simp
  have hrefused : (now.assign "y" unreadable).2 = some (.notNumeral "abc") :=
    (hy.refused_iff _).2 ⟨rfl, now.rhs, hmem, some 5, hleaf⟩
  exact ⟨⟨hl, hr⟩, hleft, hnow, hrefused, hy.nothing _ rfl⟩

end Isolate
