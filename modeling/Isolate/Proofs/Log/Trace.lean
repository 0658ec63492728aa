import Isolate.Proofs.Log.History
import Isolate.Proofs.Solver.Report

/-!
# The trace of a run at every level

The steps of a run are logged for debugging, giving up is a warning, and the outcome is detailed
information.  So a level passes the whole trace of a run, or its end, or the warning alone, or
nothing.

* `Trace.upTo` - what is left of a trace at a level;
* `Trace.IsOf.passing_eq` - that it is what passes at that level;
* `solve_traced` - **what is logged of a run is its trace, and the run does not depend on it**.
-/

namespace Isolate

namespace Log

/-! ## Messages of one level -/

theorem Level.passing_append (level : Level) (messages more : List Message) :
    level.passing (messages ++ more) = level.passing messages ++ level.passing more :=
  List.filter_append ..

/-- Messages that pass from the same level on pass together. -/
theorem Level.passing_of_required {required : Level} {messages : List Message}
    (h : ∀ m ∈ messages, m.required = required) (level : Level) :
    level.passing messages = if required.rank ≤ level.rank then messages else [] := by
  by_cases hlevel : required.rank ≤ level.rank
  · rw [if_pos hlevel, passing, List.filter_eq_self]
    exact fun m hm => decide_eq_true (h m hm ▸ hlevel)
  · rw [if_neg hlevel, passing, List.filter_eq_nil_iff]
    exact fun m hm => by rw [h m hm]; simpa using hlevel

/-- Logging one message after the other is logging all of them. -/
theorem Logger.foldl_log (l : Logger) (sink : Sink) (held : List String)
    (messages : List Message) :
    messages.foldl (l.log sink) held = held ++ l.written sink messages := by
  induction messages generalizing held with
  | nil => simp [written]
  | cons m messages ih =>
    rw [List.foldl_cons, ih, log, List.append_assoc]
    by_cases h : sink ∈ l.sinks
    · simp [written, h]
    · simp [written, h]

end Log

namespace Solver

open Log (Message Level Logger Sink)

variable {s before next : Solver Float} {made : Nat} {messages : List Message}

/-! ## The parts of a trace -/

theorem StepWritten.required (h : StepWritten before next made messages) :
    ∀ m ∈ messages, m.required = .verbose := by
  cases h <;> simp [Message.required]

theorem EndWritten.required (h : EndWritten s made messages) :
    ∀ m ∈ messages, m.required = .minimal := by
  cases h <;> simp [Message.required]

theorem OutcomeWritten.required {targets : List String} {m : Message}
    (h : OutcomeWritten targets s m) : m.required = .detailed := by
  cases h <;> rfl

theorem RunWritten.required {entries : List (List Message)} {warnings : List Message}
    (h : RunWritten s entries warnings) : ∀ m ∈ entries.flatten, m.required = .verbose := by
  intro m hm
  obtain ⟨written, hwritten, hm⟩ := List.mem_flatten.1 hm
  obtain ⟨k, hk⟩ := List.mem_iff_getElem?.1 hwritten
  exact (h.entry k written hk).required m hm

namespace Trace

/-- What a level leaves of a trace. -/
def upTo (t : Trace) : Level → List Message
  | .silent => []
  | .minimal => t.warnings
  | .moderate => t.warnings
  | .detailed => t.warnings ++ [t.outcome]
  | .verbose => t.messages

/-- It is what passes at that level. -/
theorem IsOf.passing_eq {t : Trace} (h : t.IsOf s) (level : Level) :
    level.passing t.messages = t.upTo level := by
  rw [messages, Level.passing_append, Level.passing_append,
    Level.passing_of_required h.run.required, Level.passing_of_required h.run.warnings.required,
    Level.passing_of_required (List.forall_mem_singleton.2 h.outcome.required)]
  cases level <;> simp [upTo, messages, Level.rank]

end Trace

/-! ## Runs that are logged -/

/-- **What is logged of a run is its trace, and the run does not depend on it.**  Of the run of a
solver between built sides there is a trace: for every step an entry, namely the sides after it,
with its number, and before that one message why, if it fails; then a warning, exactly if the limit
ends the run; then the outcome.  A sink of any logger gets this trace at the highest level, and at
any other level the messages of it that pass there.  The run comes to the same end at every
level. -/
theorem solve_traced {lhs rhs : Tree Float} (hl : lhs.Built) (hr : rhs.Built)
    (targets : List String) (maxSteps : Option Int) :
    ∃ t : Trace, t.IsOf (start lhs rhs targets maxSteps) ∧
      ∀ (l : Logger) (sink : Sink), sink ∈ l.sinks → ∀ held : List String,
        (start lhs rhs targets maxSteps).solveWith (l.log sink) held
            = .ok ((start lhs rhs targets maxSteps).solve.1,
              held ++ (t.upTo l.level).flatMap Message.lines) ∧
          l.level.passing t.messages = t.upTo l.level := by
  obtain ⟨t, ht, hmessages⟩ := exists_trace (s := start lhs rhs targets maxSteps) ⟨hl, hr⟩
  refine ⟨t, ht, fun l sink hsink held => ⟨?_, ht.passing_eq l.level⟩⟩
  rw [solveWith_eq, hmessages, ← ht.passing_eq l.level]
  refine congrArg Except.ok (congrArg (Prod.mk _) ?_)
  rw [l.foldl_log, l.written_eq, if_pos hsink]

/-- The equation `x ^ p + r = q`, to be solved for `x`. -/
def tower : Solver Float :=
  start (.seq .sum [⟨.pow (.var (.text "x") none) (.hole (.text "p")), true⟩,
    ⟨.hole (.text "r"), true⟩]) (.hole (.text "q")) ["x"] none

theorem built_tower : tower.IsBuilt := by
  refine ⟨Tree.built_seq ?_, .hole "q"⟩
  simp only [List.forall_mem_cons, List.not_mem_nil, false_imp_iff, implies_true, and_true]
  exact ⟨Tree.built_pow (.var "x" none) (.hole "p"), .hole "r"⟩

theorem steps_tower : tower.solve.1.steps = 2 := by
  rw [solve_fst, drive_of_step rfl rfl, drive_of_step rfl rfl, drive_of_finished rfl]
  rfl

/-- The first step frees the power and the second fails at it.  A stream gets all of this at the
highest level, and the outcome alone at the level below. -/
theorem traced_tower :
    (tower.lhs.Built ∧ tower.rhs.Built ∧ ∀ level ∈ [Level.verbose, .detailed],
        .stream ∈ (Logger.configured level true false).sinks) ∧
      ∃ outcome : Message,
        tower.solveWith ((Logger.configured .verbose true false).log .stream) []
          = .ok (tower.solve.1, [.debug "Step 1: (x)^(p) = (q)-(r)",
              .debug "Unsolvable at step 1: variable inside an exponentiation",
              .debug "Step 2: (x)^(p) = (q)-(r)", outcome].flatMap Message.lines) ∧
        tower.solveWith ((Logger.configured .detailed true false).log .stream) []
          = .ok (tower.solve.1, outcome.lines) := by
  obtain ⟨hl, hr⟩ := built_tower
  have hverbose : Sink.stream ∈ (Logger.configured .verbose true false).sinks := by decide
  have hdetailed : Sink.stream ∈ (Logger.configured .detailed true false).sinks := by decide
  obtain ⟨⟨entries, warnings, outcome⟩, ⟨hrun, -⟩, hlog⟩ := solve_traced hl hr ["x"] none
  have hlength : 0 + entries.length = 2 := hrun.length_eq.trans steps_tower
  obtain ⟨first, second, rfl⟩ := List.length_eq_two.1 (by omega : entries.length = 2)
  have hfirst : first = [.debug "Step 1: (x)^(p) = (q)-(r)"] := by
    cases hrun.entry 0 first rfl with
    | done hsolvable hl hr =>
      obtain rfl := Except.ok.inj hl
      obtain rfl := Except.ok.inj hr
      rfl
    | failed hsolvable => exact absurd hsolvable (by decide)
  have hsecond : second = [.debug "Unsolvable at step 1: variable inside an exponentiation",
      .debug "Step 2: (x)^(p) = (q)-(r)"] := by
    cases hrun.entry 1 second rfl with
    | done hsolvable => exact absurd hsolvable (by decide)
    | failed hsolvable hmove hreason hl hr =>
      obtain rfl := Move.stuck.inj hmove
      obtain rfl := Except.ok.inj hreason
      obtain rfl := Except.ok.inj hl
      obtain rfl := Except.ok.inj hr
      rfl
  have hend : EndWritten tower 2 warnings := hrun.warnings
  have hwarnings : warnings = [] := by
    cases hend with
    | finished => rfl
    | gaveUp hgoing => exact absurd hgoing (by decide)
  subst hfirst hsecond hwarnings
  refine ⟨⟨hl, hr, by decide⟩, outcome, (hlog _ _ hverbose []).1, ?_⟩
  rw [← List.append_nil outcome.lines]
  exact (hlog _ _ hdetailed []).1

end Solver

end Isolate
