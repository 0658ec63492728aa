import Isolate.Proofs.Solver.Run
import Isolate.Proofs.Solver.Sides
import Isolate.Proofs.Tree.Site

/-!
# Which equations can be solved

Solving for a variable succeeds exactly if the variable is the only thing that is open on either
side and nothing but sums and products stands above it (`Isolable`).  A step that frees a term goes
down to the term of that one open site, so it keeps the condition (`isolable_of_freed`), and a step
that gets stuck refutes it (`not_isolable_of_stuck`).

* `solved_drive_iff` - what a run comes to, and in how many steps;
* `solve_start_iff` - the same from the start, where there may be nothing to do;
* `solve_solved_iff` - **what is solvable**, for equations.
-/

namespace Isolate

variable {ν : Type}

/-- Some open sites are a single one, which has the name and stands in sums and products only. -/
def Isolable (name : String) (sites : List (Site ν)) : Prop :=
  ∃ site, sites = [site] ∧ site.name = .text name ∧ ∀ k ∈ site.above, k = .sum ∨ k = .product

/-- A sum or product above makes no difference. -/
theorem isolable_below_seq {name : String} {kind : SeqKind} {sites : List (Site ν)} :
    Isolable name (sites.map (·.below kind.kind)) ↔ Isolable name sites := by
  have hkind : kind.kind = .sum ∨ kind.kind = .product := by cases kind <;> simp [SeqKind.kind]
  constructor
  · rintro ⟨site, hsite, hname, habove⟩
    obtain ⟨s, rfl, rfl⟩ := List.map_eq_singleton_iff.1 hsite
    exact ⟨s, rfl, hname, fun k hk => habove k (List.mem_cons_of_mem _ hk)⟩
  · rintro ⟨site, rfl, hname, habove⟩
    refine ⟨site.below kind.kind, rfl, hname, fun k hk => ?_⟩
    rcases List.mem_cons.1 hk with rfl | hk
    · exact hkind
    · exact habove k hk

/-- Any other node above does. -/
theorem not_isolable_below {name : String} {kind : Kind} (h : ¬(kind = .sum ∨ kind = .product))
    (sites : List (Site ν)) : ¬Isolable name (sites.map (·.below kind)) := by
  rintro ⟨site, hsite, _, habove⟩
  obtain ⟨s, rfl, rfl⟩ := List.map_eq_singleton_iff.1 hsite
  exact h (habove kind (List.mem_cons_self ..))

namespace Solver

variable {s : Solver ν} {name : String}

/-! ## One step -/

theorem isKnown_iff {t : Signed (Tree ν)} :
    isKnown [name] t = true ↔ t.item.openSites name = [] :=
  Tree.evaluatesConstant_iff

/-- The open sites of some terms are those of the terms that depend on the variable. -/
theorem flatMap_openSites (name : String) (terms : List (Signed (Tree ν))) :
    terms.flatMap (fun t => t.item.openSites name)
      = (terms.filter (!isKnown [name] ·)).flatMap fun t => t.item.openSites name := by
  induction terms with
  | nil => rfl
  | cons t terms ih =>
    by_cases h : isKnown [name] t = true
    · rw [List.flatMap_cons, isKnown_iff.1 h, List.filter_cons_of_neg (by simp [h]), ih]
      rfl
    · rw [List.flatMap_cons, List.filter_cons_of_pos (by simpa using h), List.flatMap_cons, ih]

/-- The term that comes free has all the open sites. -/
theorem openSites_of_freed (ht : s.targets = [name]) {lhs rhs : Tree ν}
    (h : s.move = .freed lhs rhs) :
    ∃ kind : SeqKind, s.lhs.openSites name = (lhs.openSites name).map (·.below kind.kind) := by
  obtain ⟨kind, terms, dependent, hs, hd, rfl, _⟩ := exists_of_freed h
  rw [ht] at hd
  refine ⟨kind, ?_⟩
  rw [hs, Tree.openSites_seq, flatMap_openSites, hd, List.flatMap_singleton]

theorem isolable_of_freed (ht : s.targets = [name]) {lhs rhs : Tree ν}
    (h : s.move = .freed lhs rhs) :
    Isolable name (s.lhs.openSites name) ↔ Isolable name (lhs.openSites name) := by
  obtain ⟨kind, hkind⟩ := openSites_of_freed ht h
  rw [hkind]
  exact isolable_below_seq

/-- A target is one open site with nothing above it. -/
theorem openSites_of_arrived (ht : s.targets = [name]) (h : s.move = .arrived) :
    ∃ stored, s.lhs.openSites name = [⟨.text name, stored, []⟩] := by
  obtain ⟨n, hn, stored, hs⟩ := exists_of_isTarget (target_of_arrived h)
  obtain rfl : n = name := by simpa [ht] using hn
  exact ⟨stored, by simp [hs, Tree.openSites, Tree.sites, Site.isOpen]⟩

/-- Terms of which none depends on the variable, or several do, have no single open site. -/
theorem not_isolable_of_terms {kind : SeqKind} {terms : List (Signed (Tree ν))}
    (h : ∀ t, terms.filter (!isKnown [name] ·) ≠ [t]) :
    ¬Isolable name ((Tree.seq kind terms).openSites name) := by
  rw [Tree.openSites_seq, isolable_below_seq, flatMap_openSites]
  rintro ⟨site, hsite, _⟩
  -- every term that is left has an open site of its own
  have hopen : ∀ t ∈ terms.filter (!isKnown [name] ·), t.item.openSites name ≠ [] := by
    intro t ht hnil
    have := (List.mem_filter.1 ht).2
    simp [isKnown_iff.2 hnil] at this
  have hlen := congrArg List.length hsite
  cases hterms : terms.filter (!isKnown [name] ·) with
  | nil => simp [hterms] at hlen
  | cons a rest =>
    cases rest with
    | nil => exact h a hterms
    | cons b rest =>
      rw [hterms] at hlen hopen
      have ha := List.length_pos_of_ne_nil (hopen a (by simp))
      have hb := List.length_pos_of_ne_nil (hopen b (by simp))
      simp only [List.flatMap_cons, List.length_append, List.length_singleton] at hlen
      omega

theorem not_isolable_of_stuck (ht : s.targets = [name]) {obstacle : Obstacle}
    (h : s.move = .stuck obstacle) : ¬Isolable name (s.lhs.openSites name) := by
  unfold move at h
  split at h
  case h_1 n stored hs =>
    -- another variable: it may be open, but it is not the one
    split at h
    · exact absurd h (by simp)
    · rename_i hn
      rw [hs]
      rintro ⟨site, hsite, hname, _⟩
      have hmem : site ∈ [(⟨n, stored, []⟩ : Site ν)] :=
        (List.mem_filter.1 (hsite ▸ List.mem_singleton_self site :
          site ∈ (Tree.var n stored).openSites name)).1
      obtain rfl := List.mem_singleton.1 hmem
      obtain rfl : n = .text name := hname
      simp [isTarget, ht] at hn
  case h_4 kind terms hs =>
    rw [hs]
    refine not_isolable_of_terms fun t hterms => ?_
    unfold moveTerms at h
    rw [ht] at h
    rw [hterms] at h
    exact absurd h (by simp)
  case h_5 base exponent hs =>
    rw [hs, Tree.openSites_pow]
    exact not_isolable_below (by decide) _
  case h_6 id argument hs =>
    rw [hs, Tree.openSites_fn]
    exact not_isolable_below (by decide) _
  all_goals
    rename_i hs
    rw [hs]
    rintro ⟨site, hsite, _⟩
    simp [Tree.openSites, Tree.sites] at hsite

/-! ## A whole run -/

/-- Without a limit, a turn before the end is a step. -/
theorem turn_eq_step (hm : s.maxSteps = none) (hf : s.isFinished = false) : s.turn = s.step.1 := by
  simp [turn, hf, isCapped, hm]

theorem drive_eq_drive_step (hm : s.maxSteps = none) (hf : s.isFinished = false) :
    s.drive.1 = s.step.1.drive.1 := by
  rw [drive_eq_drive_turn, turn_eq_step hm hf]

/-- A step that does not free a term is the last one. -/
theorem drive_eq_after (hm : s.maxSteps = none) (hf : s.isFinished = false)
    (h : (s.after s.move).isFinished = true) : s.drive.1 = s.after s.move := by
  rw [drive_eq_drive_step hm hf, step_of_not_finished hf, drive_of_finished h]

/-- **A run without a limit isolates what can be isolated**, in one step for every node above the
open site and one more. -/
theorem solved_drive_iff (ht : s.targets = [name]) (hm : s.maxSteps = none)
    (hf : s.isFinished = false) :
    (s.drive.1.solved = true ↔ Isolable name (s.lhs.openSites name)) ∧
      ∀ site, s.lhs.openSites name = [site] → s.drive.1.solved = true →
        s.drive.1.steps = s.steps + site.above.length + 1 := by
  -- along the run the left-hand side gets less deep
  generalize hdepth : s.lhs.depth = d
  induction d using Nat.strong_induction_on generalizing s with
  | h d ih =>
    have hs : s.solved = false := (isFinished_eq_false.1 hf).1
    cases hmove : s.move with
    | arrived =>
      have hdrive := drive_eq_after hm hf (by simp [hmove, after, isFinished])
      rw [hmove] at hdrive
      obtain ⟨stored, hopen⟩ := openSites_of_arrived ht hmove
      rw [hdrive, hopen]
      refine ⟨⟨fun _ => ⟨_, rfl, rfl, by simp⟩, fun _ => rfl⟩, ?_⟩
      rintro site hsite -
      obtain rfl := List.singleton_inj.1 hsite
      rfl
    | stuck obstacle =>
      have hdrive := drive_eq_after hm hf (by simp [hmove, after, isFinished])
      rw [hmove] at hdrive
      have hno : s.drive.1.solved = false := by rw [hdrive]; exact hs
      refine ⟨⟨fun h => ?_, fun h => ?_⟩, fun site _ h => ?_⟩
      · exact absurd h (by simp [hno])
      · exact absurd h (not_isolable_of_stuck ht hmove)
      · exact absurd h (by simp [hno])
    | freed lhs rhs =>
      have hstep : s.step.1 = s.after (.freed lhs rhs) := by
        rw [step_of_not_finished hf, hmove]
      have hlt : lhs.depth < d := hdepth ▸ depth_lt_of_freed hmove
      have hrest := ih lhs.depth hlt (s := s.after (.freed lhs rhs)) ht hm hf rfl
      rw [drive_eq_drive_step hm hf, hstep]
      refine ⟨hrest.1.trans (isolable_of_freed ht hmove).symm, fun site hsite hsolved => ?_⟩
      obtain ⟨kind, hkind⟩ := openSites_of_freed ht hmove
      rw [hkind] at hsite
      obtain ⟨inner, hinner, rfl⟩ := List.map_eq_singleton_iff.1 hsite
      rw [hrest.2 inner hinner hsolved]
      simp only [after, Site.below, List.length_cons]
      omega

/-- A run never takes steps back. -/
theorem steps_le_solve (s : Solver ν) : s.steps ≤ s.solve.1.steps := by
  refine keeps_solve (P := fun s' => s.steps ≤ s'.steps) (fun s' hf h => ?_) (fun s' _ h => h)
    (le_refl _)
  have := (step_effect hf).1
  omega

/-- At its start a solver is finished exactly if a target is its whole left-hand side. -/
theorem isFinished_start {lhs rhs : Tree ν} {targets : List String} {maxSteps : Option Int} :
    (start lhs rhs targets maxSteps).isFinished = isTarget targets lhs := by
  simp [start, isFinished]

/-- A run without a limit that fails makes at least one step. -/
theorem one_le_steps_of_not_solved {lhs rhs : Tree ν} {targets : List String}
    (h : (start lhs rhs targets none).solve.1.solved = false) :
    1 ≤ (start lhs rhs targets none).solve.1.steps := by
  rw [solve_fst] at h ⊢
  by_cases hfin : isTarget targets lhs = true
  · rw [drive_of_finished (isFinished_start.trans hfin)] at h
    exact absurd hfin (by simp [show isTarget targets lhs = false from h])
  · have hf : (start lhs rhs targets none).isFinished = false := by
      rw [isFinished_start]
      simpa using hfin
    have hone := (step_effect hf).1
    have hle := steps_le_solve (start lhs rhs targets none).step.1
    rw [solve_fst] at hle
    rw [drive_eq_drive_step rfl hf]
    omega

theorem steps_solve_le (lhs rhs : Tree ν) (targets : List String) (maxSteps : Option Int) :
    (start lhs rhs targets maxSteps).solve.1.steps ≤ lhs.depth := by
  have := (keeps_solve (fun _ => invariant_step) (fun _ => invariant_giveUp)
    (invariant_start lhs rhs targets maxSteps)).steps_le
  omega

/-- A run from the start ends with exactly one of the two flags. -/
theorem solvable_solve (lhs rhs : Tree ν) (targets : List String) (maxSteps : Option Int) :
    (start lhs rhs targets maxSteps).solve.1.solvable
      = (start lhs rhs targets maxSteps).solve.1.solved := by
  have hinv := keeps_solve (fun _ => invariant_step) (fun _ => invariant_giveUp)
    (invariant_start lhs rhs targets maxSteps)
  obtain ⟨_, _, _, hfin⟩ := (start lhs rhs targets maxSteps).drive_eq_turns
  cases hs : (start lhs rhs targets maxSteps).solve.1.solved with
  | true => exact hinv.solvable_of_solved hs
  | false =>
    rw [← solve_fst, isFinished, hs] at hfin
    simpa using hfin

/-- The same from the start, where the variable may be on its own already. -/
theorem solve_start_iff (lhs rhs : Tree ν) (name : String) :
    ((start lhs rhs [name] none).solve.1.solved = true ↔ Isolable name (lhs.openSites name)) ∧
      ∀ site, lhs.openSites name = [site] →
        (start lhs rhs [name] none).solve.1.solved = true →
        (start lhs rhs [name] none).solve.1.steps
          = if site.above = [] then 0 else site.above.length + 1 := by
  rw [solve_fst]
  by_cases hfin : isTarget [name] lhs = true
  · rw [drive_of_finished (isFinished_start.trans hfin)]
    obtain ⟨n, hn, stored, rfl⟩ := exists_of_isTarget hfin
    obtain rfl := List.mem_singleton.1 hn
    have hopen : (Tree.var (.text n) stored).openSites n = [⟨.text n, stored, []⟩] := by
      simp [Tree.openSites, Tree.sites, Site.isOpen]
    rw [hopen]
    refine ⟨⟨fun _ => ⟨_, rfl, rfl, by simp⟩, fun _ => hfin⟩, ?_⟩
    rintro site hsite -
    obtain rfl := List.singleton_inj.1 hsite
    rfl
  · have hf : (start lhs rhs [name] none).isFinished = false := by
      rw [isFinished_start]
      simpa using hfin
    obtain ⟨hiff, hsteps⟩ := solved_drive_iff (s := start lhs rhs [name] none) rfl rfl hf
    refine ⟨hiff, fun site hsite hsolved => ?_⟩
    -- a single open site with nothing above it would be the whole left-hand side
    have habove : site.above ≠ [] := by
      intro hnil
      obtain ⟨site', hsite', hname, _⟩ := hiff.1 hsolved
      obtain rfl : site = site' := List.singleton_inj.1 (hsite.symm.trans hsite')
      have hmem : site ∈ lhs.sites :=
        (List.mem_filter.1 (hsite ▸ List.mem_singleton_self site : site ∈ lhs.openSites name)).1
      refine hfin ?_
      rw [Tree.eq_var_of_mem_sites hmem hnil, hname]
      simp [isTarget]
    rw [hsteps site hsite hsolved, if_neg habove]
    simp [start]

end Solver

/-! ## Equations -/

namespace Equation

/-- The open sites of both sides. -/
def openSites (name : String) (e : Equation ν) : List (Site ν) :=
  e.lhs.openSites name ++ e.rhs.openSites name

theorem isKnownSide_eq_false {name : String} {t : Tree ν} :
    isKnownSide name t = false ↔ t.openSites name ≠ [] := by
  rw [← Bool.not_eq_true, isKnownSide, Tree.evaluatesConstant_iff]

theorem isKnownSide_eq_true {name : String} {t : Tree ν} :
    isKnownSide name t = true ↔ t.openSites name = [] :=
  Tree.evaluatesConstant_iff

/-- With one side known, the open sites are those of the other. -/
theorem openSites_of_sides {e : Equation ν} {name : String} {dependent known : Tree ν}
    (h : Sides e name dependent known) : e.openSites name = dependent.openSites name := by
  have hk := isKnownSide_eq_true.1 h.known_eq
  obtain ⟨rfl, rfl⟩ | ⟨rfl, rfl⟩ := h.sides
  · rw [openSites, hk, List.append_nil]
  · rw [openSites, hk, List.nil_append]

/-- With both sides known or neither, there is no single open site. -/
theorem not_isolable_of_no_side {e : Equation ν} {name : String}
    (h : isKnownSide name e.lhs = isKnownSide name e.rhs) : ¬Isolable name (e.openSites name) := by
  rintro ⟨site, hsite, _⟩
  have hlen := congrArg List.length hsite
  rw [openSites, List.length_append, List.length_singleton] at hlen
  cases hr : isKnownSide name e.rhs with
  | true =>
    rw [isKnownSide_eq_true.1 (h.trans hr), isKnownSide_eq_true.1 hr] at hlen
    exact absurd hlen (by simp)
  | false =>
    have hl := List.length_pos_of_ne_nil (isKnownSide_eq_false.1 (h.trans hr))
    have hr := List.length_pos_of_ne_nil (isKnownSide_eq_false.1 hr)
    omega

/-- **What is solvable.**  Without a limit on the steps, an equation of built sides is solved for a
variable exactly if the variable is the one open site of both sides together and only sums and
products stand above it.  It takes no step if the variable is a whole side, else one for every node
above and one more.  Any other equation is found to be unsolvable: at once if both sides have an
open site or neither has, else in at least one step and at most as many as the open side is deep. -/
theorem solve_solved_iff (e : Equation ν) (hl : e.lhs.Built) (hr : e.rhs.Built) (name : String) :
    ∃ solution events, e.solve name none = .ok (solution, events) ∧
      (solution.solved = true ↔ Isolable name (e.openSites name)) ∧
      (∀ site, e.openSites name = [site] → solution.solved = true →
        solution.steps = if site.above = [] then 0 else site.above.length + 1) ∧
      (solution.solved = false →
        solution.solvable = false ∧ solution.equation = none ∧
        ((e.lhs.openSites name = [] ↔ e.rhs.openSites name = []) → solution.steps = 0) ∧
        (e.lhs.openSites name ≠ [] → e.rhs.openSites name = [] →
          1 ≤ solution.steps ∧ solution.steps ≤ e.lhs.depth) ∧
        (e.lhs.openSites name = [] → e.rhs.openSites name ≠ [] →
          1 ≤ solution.steps ∧ solution.steps ≤ e.rhs.depth)) := by
  rcases sides_or_same e name with ⟨dependent, known, h⟩ | h
  · obtain ⟨hiff, hsteps⟩ := Solver.solve_start_iff dependent known name
    have hd := isKnownSide_eq_false.1 h.dependent_eq
    have hk := isKnownSide_eq_true.1 h.known_eq
    refine ⟨_, _, solve_of_sides h hl hr none, ?_, ?_, fun hno => ⟨?_, ?_, fun hsame => ?_, ?_⟩⟩
    · rw [openSites_of_sides h]
      exact hiff
    · rw [openSites_of_sides h]
      exact hsteps
    · exact (Solver.solvable_solve ..).trans hno
    · simp only [solutionOf] at hno ⊢
      simp [hno]
    · obtain ⟨rfl, rfl⟩ | ⟨rfl, rfl⟩ := h.sides
      · exact absurd (hsame.2 hk) hd
      · exact absurd (hsame.1 hk) hd
    · have hone := Solver.one_le_steps_of_not_solved hno
      have hle := Solver.steps_solve_le dependent known [name] none
      obtain ⟨rfl, rfl⟩ | ⟨rfl, rfl⟩ := h.sides
      · exact ⟨fun _ _ => ⟨hone, hle⟩, fun h => absurd h hd⟩
      · exact ⟨fun _ h => absurd h hd, fun _ _ => ⟨hone, hle⟩⟩
  · have hno := not_isolable_of_no_side h
    refine ⟨_, _, solve_of_no_side h none, ⟨fun h => absurd h (by simp), fun h => absurd h hno⟩,
      fun _ _ h => absurd h (by simp), fun _ => ⟨rfl, rfl, fun _ => rfl, ?_⟩⟩
    refine ⟨fun hl hr => ?_, fun hl hr => ?_⟩
    · exact absurd (isKnownSide_eq_true.2 hr) (by rw [← h, isKnownSide_eq_false.2 hl]; simp)
    · exact absurd (isKnownSide_eq_true.2 hl) (by rw [h, isKnownSide_eq_false.2 hr]; simp)

/-- The equation `1 - 2 * x = y`, where `y` has the value 7. -/
def nested : Equation Int :=
  ⟨.seq .sum [⟨.const 1, true⟩,
      ⟨.seq .product [⟨.const 2, true⟩, ⟨.var (.text "x") none, true⟩], false⟩],
    .var (.text "y") (some 7)⟩

theorem built_nested : nested.lhs.Built ∧ nested.rhs.Built := by
  refine ⟨Tree.built_seq ?_, .var "y" (some 7)⟩
  simp only [List.forall_mem_cons, List.not_mem_nil, false_imp_iff, implies_true, and_true]
  refine ⟨.const 1, Tree.built_seq ?_⟩
  simp only [List.forall_mem_cons, List.not_mem_nil, false_imp_iff, implies_true, and_true]
  exact ⟨.const 2, .var "x" none⟩

theorem solve_nested :
    (nested.lhs.Built ∧ nested.rhs.Built) ∧
      ∃ solution events, nested.solve "x" none = .ok (solution, events) ∧
        solution.solved = true ∧ solution.steps = 3 := by
  obtain ⟨solution, events, hsolve, hiff, hsteps, _⟩ :=
    solve_solved_iff nested built_nested.1 built_nested.2 "x"
  have hopen : nested.openSites "x" = [⟨.text "x", none, [.sum, .product]⟩] := by rfl
  have hsolved : solution.solved = true := by
    rw [hiff, hopen]
    exact ⟨_, rfl, rfl, by simp⟩
  exact ⟨built_nested, solution, events, hsolve, hsolved, hsteps _ hopen hsolved⟩

end Equation

end Isolate
