/-!
# The log

A `Logger` passes messages to its sinks, or holds them back, by its level. The sinks are chosen
when the logger is configured: a console unless it is configured silent, and a file on request.
The level in force can be changed later, which leaves the sinks as they are.

The error output of the process is not among the sinks. What is logged as a warning or an error
ends up there where a logger has no sinks at all, as a last resort; a stream is one of its own.

* `Message.isAdmitted` - which messages pass at a level;
* `Message.line` - a message as it is written, less the time of day;
* `Journal` - the logger of a program, which comes into being when it is first needed.
-/

namespace Isolate.Log

/-! ## Levels -/

/-- How much is logged. -/
inductive Level where
  | silent
  | minimal
  | moderate
  | detailed
  | verbose
deriving Repr, DecidableEq

namespace Level

/-- The levels from least to most. -/
def all : List Level := [silent, minimal, moderate, detailed, verbose]

/-- The place of a level among them. -/
def rank : Level → Nat
  | silent => 0
  | minimal => 1
  | moderate => 2
  | detailed => 3
  | verbose => 4

/-- The name of a level. -/
def name : Level → String
  | silent => "SILENT"
  | minimal => "MINIMAL"
  | moderate => "MODERATE"
  | detailed => "DETAILED"
  | verbose => "VERBOSE"

/-- The level with a name. -/
def named? (name : String) : Option Level := all.find? (·.name == name)

end Level

/-! ## Messages -/

/-- Something to be logged. An information states the level from which on it passes. -/
inductive Message where
  | info (required : Level) (text : String)
  | milestone (text : String)
  | warning (text : String)
  | debug (text : String)
  | critical (text : String)
deriving Repr, DecidableEq

namespace Message

/-- Whether a message passes at a level: milestones and critical messages unless it is silent. -/
def isAdmitted (level : Level) : Message → Bool
  | info required _ => required.rank ≤ level.rank
  | milestone _ => level != .silent
  | warning _ => Level.minimal.rank ≤ level.rank
  | debug _ => Level.verbose.rank ≤ level.rank
  | critical _ => level != .silent

/-- The level from which on a message passes. -/
def required : Message → Level
  | info required _ => required
  | milestone _ => .minimal
  | warning _ => .minimal
  | debug _ => .verbose
  | critical _ => .minimal

theorem isAdmitted_eq (level : Level) (m : Message) :
    m.isAdmitted level = decide (m.required.rank ≤ level.rank) := by
  cases m with
  | info required text => rfl
  | _ => cases level <;> rfl

/-- A message as it is written. -/
def line : Message → String
  | info _ text => "INFO - " ++ text
  | milestone text => "INFO - MILESTONE: " ++ text
  | warning text => "WARNING - " ++ text
  | debug text => "DEBUG - DEBUG: " ++ text
  | critical text => "ERROR - CRITICAL: " ++ text

/-- The lines that a message takes up; a line feed inside it begins another line. -/
def lines (m : Message) : List String := m.line.splitOn "\n"

end Message

/-! ## Loggers -/

/-- Where lines go. -/
inductive Sink where
  | console
  /-- A stream that the caller opened, and not the error output of the process. -/
  | stream
  | file
deriving Repr, DecidableEq

/-- A level in force and the sinks that were chosen at the start. -/
structure Logger where
  level : Level
  sinks : List Sink
deriving Repr, DecidableEq

namespace Logger

/-- A logger at a level; `toStream` puts a stream in place of the console. -/
def configured (level : Level) (toStream toFile : Bool) : Logger :=
  ⟨level, (if level = .silent then [] else [if toStream then .stream else .console])
    ++ if toFile then [.file] else []⟩

/-- The logger of a program that never configures one. -/
def standard : Logger := configured .minimal false false

/-- The lines that a message brings to every sink of a logger. -/
def passed (l : Logger) (m : Message) : List String :=
  if m.isAdmitted l.level then m.lines else []

/-- The lines that some messages bring to a sink. Without sinks a logger brings nothing to a stream:
the last resort for its messages is the error output, which is no sink here. -/
def written (l : Logger) (sink : Sink) (messages : List Message) : List String :=
  if sink ∈ l.sinks then messages.flatMap l.passed else []

/-- The lines of a sink after one more message. -/
def log (l : Logger) (sink : Sink) (held : List String) (m : Message) : List String :=
  held ++ l.written sink [m]

end Logger

/-! ## The logger of a program -/

/-- The logger of a program, if there is one yet. -/
abbrev Journal := Option Logger

namespace Journal

/-- The logger in force; if there is none yet, the standard one comes into being. -/
def current (j : Journal) : Logger := j.getD Logger.standard

/-- Another level in force. Where there is no logger yet, one is configured at that level. -/
def setLevel (j : Journal) (level : Level) : Journal :=
  match j with
  | some l => some { l with level }
  | none => some (Logger.configured level false false)

/-- Whatever there was, a new logger. -/
def configure (level : Level) (toStream toFile : Bool) : Journal :=
  some (Logger.configured level toStream toFile)

end Journal

end Isolate.Log
