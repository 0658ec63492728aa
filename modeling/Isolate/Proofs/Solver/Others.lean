import Isolate.Proofs.Solver.Closed

/-!
# Solving for one variable and then for another

Whether a variable can be isolated is a matter of its open sites (`Isolable`), and of the nodes
above them only those count that are neither sums nor products.  The `core` of a site leaves the
others out.  A step takes a sum or a product away from above some sites and puts it above others;
so it changes no core, and loses or makes up none (`cores_of_freed`).  Hence the same variables can
be isolated at the end of a run as at its start.

* `cores` - the cores of the sites of a tree, in no order;
* `isolable_iff_cores` - being isolable is a matter of the cores;
* `solve_other_iff` - **solving for one variable changes nothing for the others**.
-/

namespace Isolate

variable {ν : Type}

/-! ## Cores -/

/-- A site without the sums and products above it. -/
def Site.core (s : Site ν) : Site ν :=
  { s with above := s.above.filter fun k => !(k == .sum || k == .product) }

theorem Site.core_below_seq (kind : SeqKind) (s : Site ν) :
    (s.below kind.kind).core = s.core := by
  cases kind <;> rfl

theorem Site.core_above_eq_nil_iff {s : Site ν} :
    s.core.above = [] ↔ ∀ k ∈ s.above, k = .sum ∨ k = .product := by
  rw [Site.core, List.filter_eq_nil_iff]
  refine forall₂_congr fun k _ => ?_
  cases k <;> simp

/-- The cores of some sites, in no order. -/
def coresOf (sites : List (Site ν)) : Multiset (Site ν) := (sites.map Site.core : List (Site ν))

theorem coresOf_append (sites others : List (Site ν)) :
    coresOf (sites ++ others) = coresOf sites + coresOf others := by
  rw [coresOf, List.map_append, ← Multiset.coe_add]
  rfl

/-- **Being isolable is a matter of the cores**: a single one is open, it has the name, and nothing
is above it. -/
theorem isolable_iff_cores {name : String} {sites : List (Site ν)} :
    Isolable name (sites.filter (·.isOpen name)) ↔
      ∃ site, (coresOf sites).filter (·.isOpen name) = {site} ∧ site.name = .text name ∧
        site.above = [] := by
  -- a site is open exactly if its core is
  have hopen : (coresOf sites).filter (·.isOpen name)
      = coresOf (sites.filter (·.isOpen name)) := by
    rw [coresOf, Multiset.filter_coe, List.filter_map]
    simp only [Bool.decide_eq_true]
    rfl
  rw [hopen]
  constructor
  · rintro ⟨site, hsite, hname, habove⟩
    exact ⟨site.core, by rw [hsite]; rfl, hname, Site.core_above_eq_nil_iff.2 habove⟩
  · rintro ⟨site, hsite, hname, habove⟩
    rw [coresOf, Multiset.coe_eq_singleton, List.map_eq_singleton_iff] at hsite
    obtain ⟨inner, hinner, rfl⟩ := hsite
    exact ⟨inner, hinner, hname, Site.core_above_eq_nil_iff.1 habove⟩

namespace Tree

/-- The cores of the variable leaves of a tree. -/
def cores (t : Tree ν) : Multiset (Site ν) := coresOf t.sites

/-- The cores of a sequence are those of its terms. -/
theorem cores_seq (kind : SeqKind) (terms : List (Signed (Tree ν))) :
    (seq kind terms).cores = (terms.map fun t => t.item.cores).sum := by
  have hbelow : ∀ sites : List (Site ν),
      coresOf (sites.map (·.below kind.kind)) = coresOf sites := by
    intro sites
    simp [coresOf, Function.comp_def, Site.core_below_seq]
  rw [cores, sites, hbelow]
  induction terms with
  | nil => rfl
  | cons t terms ih =>
    rw [sitesOf, coresOf_append, ih, List.map_cons, List.sum_cons]
    rfl

end Tree

/-! ## Runs -/

namespace Solver

/-- **A step keeps the cores** of both sides together. -/
theorem cores_of_freed {s : Solver ν} {lhs rhs : Tree ν} (h : s.move = .freed lhs rhs) :
    lhs.cores + rhs.cores = s.lhs.cores + s.rhs.cores :=
  conserved_of_freed (f := Tree.cores) (g := fun _ => 0)
    (fun kind terms => by rw [Tree.cores_seq, zero_add]) h

/-- A run keeps them. -/
theorem cores_solve (s : Solver ν) :
    s.solve.1.lhs.cores + s.solve.1.rhs.cores = s.lhs.cores + s.rhs.cores := by
  refine keeps_solve (P := fun s' => s'.lhs.cores + s'.rhs.cores = s.lhs.cores + s.rhs.cores)
    (fun s' hf h => ?_) (fun _ _ h => h) rfl
  rw [step_of_not_finished hf]
  cases hm : s'.move with
  | arrived => exact h
  | stuck obstacle => exact h
  | freed lhs rhs => exact (cores_of_freed hm).trans h

end Solver

/-! ## Equations -/

namespace Equation

/-- Equations whose sides have the same cores together have the same isolable variables. -/
theorem isolable_congr {e e' : Equation ν}
    (h : e.lhs.cores + e.rhs.cores = e'.lhs.cores + e'.rhs.cores) (name : String) :
    Isolable name (e.openSites name) ↔ Isolable name (e'.openSites name) := by
  have hsites : ∀ e : Equation ν,
      e.openSites name = (e.lhs.sites ++ e.rhs.sites).filter (·.isOpen name) := by
    intro e
    rw [List.filter_append]
    rfl
  have hcores : coresOf (e.lhs.sites ++ e.rhs.sites)
      = coresOf (e'.lhs.sites ++ e'.rhs.sites) := by
    rw [coresOf_append, coresOf_append]
    exact h
  rw [hsites, hsites, isolable_iff_cores, isolable_iff_cores, hcores]

/-- An equation of built sides is solved for a variable exactly if that can be isolated. -/
theorem exists_solve_iff_isolable {e : Equation ν} (hl : e.lhs.Built) (hr : e.rhs.Built)
    (name : String) :
    ∃ solution events, e.solve name none = .ok (solution, events) ∧
      (solution.solved = true ↔ Isolable name (e.openSites name)) := by
  rcases sides_or_same e name with ⟨dependent, known, h⟩ | h
  · refine ⟨_, _, solve_of_sides h hl hr none, ?_⟩
    rw [openSites_of_sides h]
    exact (Solver.solve_start_iff dependent known name).1
  · exact ⟨_, _, solve_of_no_side h none, fun hs => absurd hs (by simp),
      fun hs => absurd hs (not_isolable_of_no_side h)⟩

section Sides

variable {e : Equation ν} {name : String} {dependent known : Tree ν}

/-- The solver of an equation is closed at its end. -/
theorem closed_solve (h : Sides e name dependent known) (hl : e.lhs.Built) (hr : e.rhs.Built)
    (maxSteps : Option Int) :
    Solver.Closed name (Solver.start dependent known [name] maxSteps).solve.1 :=
  Solver.keeps_solve (fun _ => Solver.closed_step)
    (fun _ _ h => ⟨h.targets_eq, h.lhs_built, h.rhs_built, h.rhs_known⟩)
    (closed_start h hl hr maxSteps)

/-- Both its sides together have the cores of those of the equation then. -/
theorem cores_of_sides (h : Sides e name dependent known) (maxSteps : Option Int) :
    e.lhs.cores + e.rhs.cores
      = (Solver.start dependent known [name] maxSteps).solve.1.lhs.cores
        + (Solver.start dependent known [name] maxSteps).solve.1.rhs.cores := by
  rw [Solver.cores_solve]
  obtain ⟨rfl, rfl⟩ | ⟨rfl, rfl⟩ := h.sides
  · rfl
  · exact add_comm _ _

end Sides

/-- **Solving for one variable changes nothing for the others.**  If an equation of built sides is
solved for a variable, then for every name its solution can be solved exactly if the equation itself
can, whether or not its variables have values. -/
theorem solve_other_iff (e : Equation ν) (hl : e.lhs.Built) (hr : e.rhs.Built)
    (name other : String) (maxSteps : Option Int) :
    ∃ solution events, e.solve name maxSteps = .ok (solution, events) ∧
      (solution.solved = true → ∃ found, solution.equation = some found ∧
        ∃ before events₁ after events₂, e.solve other none = .ok (before, events₁) ∧
          found.solve other none = .ok (after, events₂) ∧
          (after.solved = true ↔ before.solved = true)) := by
  rcases sides_or_same e name with ⟨dependent, known, h⟩ | h
  · refine ⟨_, _, solve_of_sides h hl hr maxSteps, fun hsolved => ⟨_, if_pos hsolved, ?_⟩⟩
    have hclosed := closed_solve h hl hr maxSteps
    obtain ⟨before, events₁, hbefore, hiff⟩ := exists_solve_iff_isolable hl hr other
    obtain ⟨after, events₂, hafter, hiff'⟩ := exists_solve_iff_isolable
      (e := ⟨_, _⟩) hclosed.lhs_built hclosed.rhs_built other
    refine ⟨before, events₁, after, events₂, hbefore, hafter, ?_⟩
    rw [hiff, hiff']
    exact (isolable_congr (cores_of_sides h maxSteps) other).symm
  · exact ⟨_, _, solve_of_no_side h maxSteps, fun hs => absurd hs (by simp)⟩

/-- The equation `10 / z = 2 * x - y`, where all variables have values. -/
def ratio : Equation Int :=
  ⟨.seq .product [⟨.const 10, true⟩, ⟨.var (.text "z") (some 5), false⟩],
    .seq .sum [⟨.seq .product [⟨.const 2, true⟩, ⟨.var (.text "x") (some 1), true⟩], true⟩,
      ⟨.var (.text "y") (some 0), false⟩]⟩

theorem built_ratio : ratio.lhs.Built ∧ ratio.rhs.Built := by
  refine ⟨Tree.built_seq ?_, Tree.built_seq ?_⟩
  · simp only [List.forall_mem_cons, List.not_mem_nil, false_imp_iff, implies_true, and_true]
    exact ⟨.const 10, .var "z" (some 5)⟩
  · simp only [List.forall_mem_cons, List.not_mem_nil, false_imp_iff, implies_true, and_true]
    refine ⟨Tree.built_seq ?_, .var "y" (some 0)⟩
    simp only [List.forall_mem_cons, List.not_mem_nil, false_imp_iff, implies_true, and_true]
    exact ⟨.const 2, .var "x" (some 1)⟩

/-- The divisor `z` of the one side ends up deep inside what is found for `x`, and can be isolated
from there as it could before. -/
theorem solve_ratio :
    (ratio.lhs.Built ∧ ratio.rhs.Built) ∧
      ∃ solution events, ratio.solve "x" none = .ok (solution, events) ∧
        solution.solved = true ∧ ∃ found, solution.equation = some found ∧
          ∃ after events', found.solve "z" none = .ok (after, events') ∧
            after.solved = true := by
  have hx : ratio.openSites "x" = [⟨.text "x", some 1, [.sum, .product]⟩] := by rfl
  have hz : ratio.openSites "z" = [⟨.text "z", some 5, [.product]⟩] := by rfl
  obtain ⟨solution, events, hsolve, hiff⟩ :=
    exists_solve_iff_isolable built_ratio.1 built_ratio.2 "x"
  obtain ⟨before, events₁, hbefore, hiff'⟩ :=
    exists_solve_iff_isolable built_ratio.1 built_ratio.2 "z"
  have hsolved : solution.solved = true := hiff.2 (hx ▸ ⟨_, rfl, rfl, by simp⟩)
  obtain ⟨solution', events', hsolve', hother⟩ :=
    solve_other_iff ratio built_ratio.1 built_ratio.2 "x" "z" none
  obtain ⟨rfl, rfl⟩ := Prod.mk.inj (Except.ok.inj (hsolve'.symm.trans hsolve))
  obtain ⟨found, hfound, before', _, after, events₂, hbefore', hafter, hsame⟩ := hother hsolved
  obtain ⟨rfl, rfl⟩ := Prod.mk.inj (Except.ok.inj (hbefore'.symm.trans hbefore))
  exact ⟨built_ratio, solution', events', hsolve, hsolved, found, hfound, after, events₂, hafter,
    hsame.2 (hiff'.2 (hz ▸ ⟨_, rfl, rfl, by simp⟩))⟩

end Equation

end Isolate
