import Isolate.Log
import Mathlib.Data.List.Induction

/-!
# The log after a history of settings

The sinks of a logger are chosen when it is configured, and the level can be changed at any time
after that.  So what is written depends on two things of the past: on the level in force, and on the
level of the last configuration, since a logger that is configured silent has no console and gets
none when the level is raised later.  A file is chosen whatever the level.

* `Setting`, `Journal.after` - the calls that configure a logger or change its level, and a history
  of them;
* `after_eq` - what a history leaves of the last configuration in it;
* `written_outlet`, `written_file` - what the messages after a history bring to the console, or to
  the stream in place of it, and to the file;
* `written_alike_iff` - **when two histories make no difference**;
* `not_written_alike` - the level in force alone does not decide.
-/

namespace Isolate.Log

/-! ## Lines -/

theorem splitOnAux_ne_nil (s separator : String) (b i j : String.Pos.Raw) (found : List String) :
    s.splitOnAux separator b i j found ≠ [] := by
  fun_induction String.splitOnAux s separator b i j found with
  | case1 => simp
  | case2 _ _ _ _ _ _ _ _ _ ih => exact ih
  | case3 _ _ _ _ _ _ _ _ _ ih => exact ih
  | case4 _ _ _ _ _ _ ih => exact ih

/-- A message takes up at least one line. -/
theorem Message.lines_ne_nil (m : Message) : m.lines ≠ [] := by
  rw [Message.lines, String.splitOn]
  split
  · exact List.cons_ne_nil _ _
  · exact splitOnAux_ne_nil _ _ _ _ _ _

/-- The messages that pass at a level. -/
def Level.passing (level : Level) (messages : List Message) : List Message :=
  messages.filter fun m => m.required.rank ≤ level.rank

/-- No line is written exactly if no message passes. -/
theorem lines_passing_eq_nil_iff {level : Level} {messages : List Message} :
    (level.passing messages).flatMap Message.lines = [] ↔
      ∀ m ∈ messages, level.rank < m.required.rank := by
  rw [List.flatMap_eq_nil_iff]
  simp [Level.passing, Message.lines_ne_nil]

/-- A sink gets the lines of the messages that pass. -/
theorem Logger.written_eq (l : Logger) (sink : Sink) (messages : List Message) :
    l.written sink messages =
      if sink ∈ l.sinks then (l.level.passing messages).flatMap Message.lines else [] := by
  have hpassed : messages.flatMap l.passed = (l.level.passing messages).flatMap Message.lines := by
    induction messages with
    | nil => rfl
    | cons m messages ih =>
      rw [List.flatMap_cons, ih, passed, Message.isAdmitted_eq, Level.passing, Level.passing,
        List.filter_cons]
      split
      · rw [List.flatMap_cons]
      · rw [List.nil_append]
  rw [written, hpassed]

/-! ## Settings -/

/-- What is chosen when a logger is configured: the level to start with, and whether there is a
stream in place of the console, and a file. -/
structure Configuration where
  level : Level
  toStream : Bool
  toFile : Bool
deriving Repr, DecidableEq

namespace Configuration

/-- The sinks of a logger so configured. -/
def sinks (c : Configuration) : List Sink :=
  (Logger.configured c.level c.toStream c.toFile).sinks

/-- The sink that a reader watches: the stream, or the console if there is none. -/
def outlet (c : Configuration) : Sink := if c.toStream then .stream else .console

/-- **A logger that is configured silent has no outlet.** -/
theorem outlet_mem_sinks_iff (c : Configuration) : c.outlet ∈ c.sinks ↔ c.level ≠ .silent := by
  obtain ⟨level, toStream, toFile⟩ := c
  cases toStream <;> cases toFile <;> by_cases h : level = .silent <;>
    simp [outlet, sinks, Logger.configured, h]

/-- A file is there if it was asked for, at any level. -/
theorem file_mem_sinks_iff (c : Configuration) : .file ∈ c.sinks ↔ c.toFile = true := by
  obtain ⟨level, toStream, toFile⟩ := c
  cases toStream <;> cases toFile <;> by_cases h : level = .silent <;>
    simp [sinks, Logger.configured, h]

end Configuration

/-- A call that decides what is logged. -/
inductive Setting where
  | configure (c : Configuration)
  | setLevel (level : Level)
deriving Repr, DecidableEq

namespace Setting

/-- The configuration that a call makes. -/
def configuration? : Setting → Option Configuration
  | configure c => some c
  | setLevel _ => none

/-- The last configuration among some calls. -/
def lastConfiguration? (settings : List Setting) : Option Configuration :=
  (settings.filterMap configuration?).getLast?

end Setting

namespace Journal

/-- The logger of a program after a call. -/
def set (j : Journal) : Setting → Journal
  | .configure c => configure c.level c.toStream c.toFile
  | .setLevel level => j.setLevel level

/-- The logger of a program after some calls. -/
def after (j : Journal) (settings : List Setting) : Journal := settings.foldl set j

/-- The level in force. -/
def level (j : Journal) : Level := j.current.level

/-- **What a history leaves.**  The last configuration in it decides the sinks; the level may have
been changed since. -/
theorem after_eq (j : Journal) {settings : List Setting} {c : Configuration}
    (h : Setting.lastConfiguration? settings = some c) :
    ∃ level, j.after settings = some ⟨level, c.sinks⟩ := by
  induction settings using List.reverseRecOn with
  | nil => exact absurd h (by simp [Setting.lastConfiguration?])
  | append_singleton settings setting ih =>
    rw [after, List.foldl_append]
    rw [Setting.lastConfiguration?, List.filterMap_append] at h
    cases setting with
    | configure d =>
      obtain rfl : d = c := by simpa [Setting.configuration?] using h
      exact ⟨d.level, rfl⟩
    | setLevel level =>
      have hlast : Setting.lastConfiguration? settings = some c := by
        rw [Setting.lastConfiguration?, ← h]
        simp [Setting.configuration?]
      obtain ⟨old, hold⟩ := ih hlast
      rw [after] at hold
      exact ⟨level, by rw [hold]; rfl⟩

section History

variable (j : Journal) {settings : List Setting} {c : Configuration}
  (h : Setting.lastConfiguration? settings = some c) (messages : List Message)

include h

/-- What comes to the outlet: nothing if the last configuration was silent, and else whatever passes
at the level in force. -/
theorem written_outlet :
    (j.after settings).current.written c.outlet messages =
      if c.level = .silent then []
      else ((j.after settings).level.passing messages).flatMap Message.lines := by
  obtain ⟨level, hafter⟩ := j.after_eq h
  have hsinks : (j.after settings).current.sinks = c.sinks := by rw [hafter]; rfl
  rw [Logger.written_eq, hsinks, if_congr c.outlet_mem_sinks_iff rfl rfl]
  exact ite_not ..

/-- What comes to the file: whatever passes at the level in force. -/
theorem written_file :
    (j.after settings).current.written .file messages =
      if c.toFile then ((j.after settings).level.passing messages).flatMap Message.lines
      else [] := by
  obtain ⟨level, hafter⟩ := j.after_eq h
  have hsinks : (j.after settings).current.sinks = c.sinks := by rw [hafter]; rfl
  rw [Logger.written_eq, hsinks]
  exact if_congr c.file_mem_sinks_iff rfl rfl

end History

/-- **When two histories make no difference.**  Take two histories with the same outlet and the same
file in their last configurations, and the same level in force at the end.  The same messages bring
the same lines to the outlet exactly if both last configurations were silent, or neither was, or no
message passes at that level.  If a configuration was silent, nothing is written whatever the level
is raised to; if not, all that passes at the level in force is written.  Their files never differ. -/
theorem written_alike_iff {j₁ j₂ : Journal} {settings₁ settings₂ : List Setting}
    {c₁ c₂ : Configuration} (h₁ : Setting.lastConfiguration? settings₁ = some c₁)
    (h₂ : Setting.lastConfiguration? settings₂ = some c₂) (hstream : c₁.toStream = c₂.toStream)
    (hfile : c₁.toFile = c₂.toFile)
    (hlevel : (j₁.after settings₁).level = (j₂.after settings₂).level)
    (messages : List Message) :
    let l₁ := (j₁.after settings₁).current
    let l₂ := (j₂.after settings₂).current
    (l₁.written c₁.outlet messages = l₂.written c₂.outlet messages ↔
      (c₁.level = .silent ↔ c₂.level = .silent) ∨
        ∀ m ∈ messages, l₁.level.rank < m.required.rank) ∧
    l₁.written c₁.outlet messages =
      (if c₁.level = .silent then [] else (l₁.level.passing messages).flatMap Message.lines) ∧
    c₁.outlet = c₂.outlet ∧ l₁.written .file messages = l₂.written .file messages := by
  intro l₁ l₂
  have hfirst := j₁.written_outlet h₁ messages
  have hsecond := j₂.written_outlet h₂ messages
  rw [← hlevel] at hsecond
  refine ⟨?_, hfirst, by rw [Configuration.outlet, hstream]; rfl, ?_⟩
  · rw [hfirst, hsecond, ← lines_passing_eq_nil_iff]
    show _ ↔ _ ∨ ((j₁.after settings₁).level.passing messages).flatMap Message.lines = []
    generalize ((j₁.after settings₁).level.passing messages).flatMap Message.lines = lines
    by_cases hs₁ : c₁.level = .silent
    · by_cases hs₂ : c₂.level = .silent
      · simp [hs₁, hs₂]
      · simp [hs₁, hs₂, eq_comm]
    · by_cases hs₂ : c₂.level = .silent
      · simp [hs₁, hs₂]
      · simp [hs₁, hs₂]
  · rw [j₁.written_file h₁, j₂.written_file h₂, hfile, hlevel]

/-- A logger on a stream, configured at a level and raised to the highest one. -/
def raised (level : Level) : List Setting := [.configure ⟨level, true, false⟩, .setLevel .verbose]

/-- From the level `minimal` a logger can be raised as from the level `detailed`; from the level
`silent` it cannot, and a warning is lost. -/
theorem written_raised :
    (Setting.lastConfiguration? (raised .minimal) = some ⟨.minimal, true, false⟩ ∧
      Setting.lastConfiguration? (raised .silent) = some ⟨.silent, true, false⟩ ∧
      Setting.lastConfiguration? (raised .detailed) = some ⟨.detailed, true, false⟩ ∧
      (after none (raised .minimal)).level = (after none (raised .detailed)).level ∧
      (after none (raised .silent)).level = (after none (raised .detailed)).level) ∧
    (∀ messages, (after none (raised .minimal)).current.written .stream messages
      = (after none (raised .detailed)).current.written .stream messages) ∧
    (after none (raised .silent)).current.written .stream [.warning "low"] = [] ∧
    (after none (raised .detailed)).current.written .stream [.warning "low"] ≠ [] := by
  have hminimal := @written_alike_iff none none (raised .minimal) (raised .detailed) _ _
    rfl rfl rfl rfl rfl
  have hsilent := @written_alike_iff none none (raised .silent) (raised .detailed) _ _
    rfl rfl rfl rfl rfl [.warning "low"]
  obtain ⟨hiff, hnone, -, -⟩ := hsilent
  refine ⟨⟨rfl, rfl, rfl, rfl, rfl⟩, fun messages => ?_, hnone, fun hlines => ?_⟩
  · exact (hminimal messages).1.2 (.inl (by decide))
  · rcases hiff.1 (hnone.trans hlines.symm) with hlevels | hfew
    · exact absurd (hlevels.1 rfl) (by decide)
    · exact absurd (hfew _ (List.mem_singleton_self _)) (by decide)

/-- **The level in force alone does not decide.**  After being configured silent and raised to the
highest level, a logger still writes nothing to its stream. -/
theorem not_written_alike :
    ¬∀ (settings₁ settings₂ : List Setting) (c₁ c₂ : Configuration) (messages : List Message),
      Setting.lastConfiguration? settings₁ = some c₁ →
      Setting.lastConfiguration? settings₂ = some c₂ →
      c₁.toStream = c₂.toStream → c₁.toFile = c₂.toFile →
      (after none settings₁).level = (after none settings₂).level →
        (after none settings₁).current.written c₁.outlet messages
          = (after none settings₂).current.written c₂.outlet messages := by
  intro h
  have halike := h (raised .silent) (raised .verbose) ⟨.silent, true, false⟩
    ⟨.verbose, true, false⟩ [.warning "low"] rfl rfl rfl rfl rfl
  have hlines : (after none (raised .verbose)).current.written .stream [.warning "low"]
      = (Message.warning "low").lines := List.append_nil _
  exact Message.lines_ne_nil _ (hlines.symm.trans halike.symm)

end Journal

end Isolate.Log
