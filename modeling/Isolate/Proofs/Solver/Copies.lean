import Isolate.Proofs.Solver.Report
import Isolate.Proofs.Solver.Sides
import Isolate.Proofs.Tree.Copy

/-!
# Copies of the sides of an equation

A solver works on copies of the sides of an equation: first the side that depends on the variable is
copied, then the other.  A function that cannot be evaluated, on either side, stands in the way of
that; nothing else does, and what is copied can be solved and written.

* `outcome_solverOn` - the copies of two sides;
* `outcome_solveWith` - with one side that depends on the variable, solving fails with the first
  function that cannot be evaluated, or succeeds;
* `copies_exact` - **copies are exact or refused**, of trees and of the sides of an equation.
-/

namespace Isolate.Equation

open Log (Message)

/-! ## The two sides -/

/-- The sides are copied one after the other. -/
theorem outcome_solverOn {ν : Type} (dependent known : Tree ν) (name : String)
    (maxSteps : Option Int) :
    Outcome (· = Solver.start dependent known [name] maxSteps)
      ((dependent.postorder ++ known.postorder).findSome? Tree.uncopied?)
      (solverOn dependent known name maxSteps) := by
  rw [List.findSome?_append]
  refine dependent.outcome_clone.bind fun lhs hlhs => ?_
  refine known.outcome_clone.map fun rhs hrhs => ?_
  rw [hlhs.1, hrhs.1]

variable {e : Equation Float} {name : String} {dependent known : Tree Float}

theorem Sides.recoded (h : Sides e name dependent known) (hl : e.lhs.Recoded)
    (hr : e.rhs.Recoded) : dependent.Recoded ∧ known.Recoded := by
  obtain ⟨rfl, rfl⟩ | ⟨rfl, rfl⟩ := h.sides
  · exact ⟨hl, hr⟩
  · exact ⟨hr, hl⟩

theorem not_mem_sides (hd : dependent.Recoded) (hk : known.Recoded) :
    ∀ found, .foreign found ∉ dependent.postorder ++ known.postorder := fun found hfound =>
  (List.mem_append.1 hfound).elim (hd.nodesOnly.postorder found) (hk.nodesOnly.postorder found)

section Logging

variable {σ : Type} (log : σ → Message → σ)

/-- Built sides are solved, whatever the log is. -/
theorem exists_solveWith_of_built (h : Sides e name dependent known) (hd : dependent.Built)
    (hk : known.Built) (maxSteps : Option Int) (held : σ) :
    ∃ r, e.solveWith log name maxSteps held = .ok r := by
  have hsides : e.lhs.Built ∧ e.rhs.Built := by
    obtain ⟨rfl, rfl⟩ | ⟨rfl, rfl⟩ := h.sides
    · exact ⟨hd, hk⟩
    · exact ⟨hk, hd⟩
  obtain ⟨t, -, hmessages⟩ :=
    Solver.exists_trace (s := Solver.start dependent known [name] maxSteps) ⟨hd, hk⟩
  rw [solveWith_eq, solve_of_sides h hsides.1 hsides.2, ok_bind]
  dsimp only
  rw [hmessages]
  exact ⟨_, rfl⟩

/-- **With one side that depends on the variable, solving is refused as its copies are.** -/
theorem outcome_solveWith (h : Sides e name dependent known) (hd : dependent.Recoded)
    (hk : known.Recoded) (maxSteps : Option Int) (held : σ) :
    Outcome (fun _ => True) ((dependent.postorder ++ known.postorder).findSome? Tree.uncopied?)
      (e.solveWith log name maxSteps held) := by
  have hcopies := outcome_solverOn dependent known name maxSteps
  cases hfirst : (dependent.postorder ++ known.postorder).findSome? Tree.uncopied? with
  | none =>
    rw [List.findSome?_append, Option.or_eq_none_iff] at hfirst
    obtain ⟨r, hr⟩ := exists_solveWith_of_built log h (hd.built_of_findSome? hfirst.1)
      (hk.built_of_findSome? hfirst.2) maxSteps held
    exact outcome_none_iff.2 ⟨r, hr, trivial⟩
  | some fault =>
    rw [hfirst, outcome_some_iff] at hcopies
    rw [outcome_some_iff, solveWith, solver?_eq_of_sides h, hcopies]
    rfl

theorem exists_solveWith_of_no_side (h : isKnownSide name e.lhs = isKnownSide name e.rhs)
    (maxSteps : Option Int) (held : σ) : ∃ r, e.solveWith log name maxSteps held = .ok r := by
  rw [solveWith, solver?_of_no_side h]
  exact ⟨_, rfl⟩

/-- Solving is refused with the first function that cannot be evaluated, where the side that depends
on the variable comes first. -/
theorem solveWith_eq_error_iff (hl : e.lhs.Recoded) (hr : e.rhs.Recoded) (maxSteps : Option Int)
    (held : σ) {fault : Fault} :
    e.solveWith log name maxSteps held = .error fault ↔
      ∃ dependent known, Sides e name dependent known ∧
        Tree.FirstUnsupported (dependent.postorder ++ known.postorder) fault := by
  rcases sides_or_same e name with ⟨dependent, known, h⟩ | h
  · obtain ⟨hd, hk⟩ := h.recoded hl hr
    rw [(outcome_solveWith log h hd hk maxSteps held).eq_error_iff,
      findSome?_eq_some_iff_first (Tree.uncopied?_of_nodes (not_mem_sides hd hk))]
    constructor
    · exact fun hfirst => ⟨dependent, known, h, hfirst⟩
    · rintro ⟨dependent', known', h', hfirst⟩
      obtain ⟨rfl, rfl⟩ := h.unique h'
      exact hfirst
  · obtain ⟨r, hsolve⟩ := exists_solveWith_of_no_side log h maxSteps held
    constructor
    · intro hfault
      exact absurd (hsolve.symm.trans hfault) (by simp)
    · rintro ⟨dependent, known, hsides, -⟩
      exact absurd h hsides.ne

/-- Solving is refused at all exactly if one side depends on the variable, and only one, and some
function on either side cannot be evaluated. -/
theorem exists_error_iff (hl : e.lhs.Recoded) (hr : e.rhs.Recoded) (maxSteps : Option Int)
    (held : σ) :
    (∃ fault, e.solveWith log name maxSteps held = .error fault) ↔
      isKnownSide name e.lhs ≠ isKnownSide name e.rhs ∧
        ∃ u ∈ e.lhs.preorder ++ e.rhs.preorder, ∃ fault, u.Unsupported fault := by
  rcases sides_or_same e name with ⟨dependent, known, h⟩ | h
  · obtain ⟨hd, hk⟩ := h.recoded hl hr
    have hmem : ∀ u, u ∈ dependent.postorder ++ known.postorder ↔
        u ∈ e.lhs.preorder ++ e.rhs.preorder := by
      intro u
      rw [List.mem_append, List.mem_append, Tree.mem_postorder, Tree.mem_postorder]
      obtain ⟨rfl, rfl⟩ | ⟨rfl, rfl⟩ := h.sides
      · rfl
      · exact or_comm
    rw [(outcome_solveWith log h hd hk maxSteps held).exists_error_iff, ne_eq,
      findSome?_eq_none_iff_forall (Tree.uncopied?_of_nodes (not_mem_sides hd hk)),
      and_iff_right h.ne]
    simp only [hmem, not_forall, not_not, exists_prop]
  · obtain ⟨r, hsolve⟩ := exists_solveWith_of_no_side log h maxSteps held
    rw [hsolve]
    simp [h]

end Logging

/-- **Copies are exact or refused.**  A tree of nodes can be copied exactly if every function in it
has a rule; then the copy is the same tree, and else the copy is refused with the first function in
postorder that has none.  So an equation whose functions may have any codes is not solved exactly if
one side depends on the variable and the other does not, and a function on either of them has no
rule; and the refusal is that of the first one, where the side that depends on the variable comes
first. -/
theorem copies_exact :
    (∀ t : Tree Float, t.NodesOnly →
      ((∃ u, t.clone = .ok u) ↔ ∀ id argument, .fn id argument ∈ t.preorder →
          ∃ f : Builtin, f.code = id ∧ f.hasRule = true) ∧
        (∀ u, t.clone = .ok u → u = t) ∧
        ∀ fault, t.clone = .error fault ↔ Tree.FirstUnsupported t.postorder fault) ∧
    ∀ e : Equation Float, e.lhs.Recoded → e.rhs.Recoded →
      ∀ {σ : Type} (log : σ → Message → σ) (name : String) (maxSteps : Option Int) (held : σ),
        ((∃ fault, e.solveWith log name maxSteps held = .error fault) ↔
          isKnownSide name e.lhs ≠ isKnownSide name e.rhs ∧
            ∃ u ∈ e.lhs.preorder ++ e.rhs.preorder, ∃ fault, u.Unsupported fault) ∧
        ∀ fault, e.solveWith log name maxSteps held = .error fault ↔
          ∃ dependent known, Sides e name dependent known ∧
            Tree.FirstUnsupported (dependent.postorder ++ known.postorder) fault :=
  ⟨fun _ => Tree.clone_exact, fun _ hl hr _ log _ maxSteps held =>
    ⟨exists_error_iff log hl hr maxSteps held,
      fun _ => solveWith_eq_error_iff log hl hr maxSteps held⟩⟩

/-- An equation with three functions that cannot be evaluated: the hyperbolic cosecant of `x` under
one that is not in the table, and another one of those on the other side. -/
def miscoded : Equation Float :=
  ⟨.fn 99 (.fn Builtin.csch.code (.var (.text "x") none)), .fn 30 (.hole (.text "p"))⟩

/-- The hyperbolic cosecant comes first, for the left-hand side and for the equation. -/
theorem refused_miscoded :
    (miscoded.lhs.NodesOnly ∧ miscoded.lhs.Recoded ∧ miscoded.rhs.Recoded) ∧
      miscoded.lhs.clone = .error (.unsupported (.text "csch")) ∧
      miscoded.solveWith (fun held m => held ++ [m]) "x" none [] =
        .error (.unsupported (.text "csch")) := by
  have hl : miscoded.lhs.Recoded := .fn 99 (.fn _ (.var "x" none))
  have hr : miscoded.rhs.Recoded := .fn 30 (.hole "p")
  have hcsch : ∀ later, Tree.FirstUnsupported (miscoded.lhs.postorder ++ later)
      (.unsupported (.text "csch")) := by
    intro later
    refine ⟨[.var (.text "x") none], _, _, rfl, .fn _ (.noRule .csch rfl), ?_⟩
    intro v hv other hother
    obtain rfl := List.mem_singleton.1 hv
    cases hother
  have hsides : Sides miscoded "x" miscoded.lhs miscoded.rhs := ⟨.inl ⟨rfl, rfl⟩, rfl, rfl⟩
  obtain ⟨hcopies, hsolve⟩ := copies_exact
  refine ⟨⟨hl.nodesOnly, hl, hr⟩, ?_, ?_⟩
  · have hfirst := hcsch []
    rw [List.append_nil] at hfirst
    exact ((hcopies _ hl.nodesOnly).2.2 _).2 hfirst
  · exact ((hsolve miscoded hl hr _ "x" none []).2 _).2 ⟨_, _, hsides, hcsch _⟩

end Isolate.Equation
