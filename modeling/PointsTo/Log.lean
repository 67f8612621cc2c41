/-!
# The log

A log is a list of messages with levels (`Message`). The levels are ordered from `error`, the most
severe, to `trace`; `Log.upTo` keeps the messages of a level and of all more severe ones.
-/

namespace PointsTo

/-- How severe a message is. -/
inductive Level where
  | error
  | warn
  | info
  | debug
  | trace
deriving DecidableEq

/-- The rank of a level, zero for the most severe one. -/
def Level.rank : Level → Nat
  | .error => 0
  | .warn => 1
  | .info => 2
  | .debug => 3
  | .trace => 4

/-- The name that starts a line of the log. -/
def Level.label : Level → String
  | .error => "ERROR"
  | .warn => "WARN"
  | .info => "INFO"
  | .debug => "DEBUG"
  | .trace => "TRACE"

/-- One message of the log. -/
structure Message where
  level : Level
  text : String

/-- A message as a line. -/
def Message.line (m : Message) : String :=
  m.level.label ++ " " ++ m.text

/-- Messages in the order in which they were written. -/
abbrev Log := List Message

/-- The lines of the messages that are at least as severe as `level`. -/
def Log.upTo (log : Log) (level : Level) : List String :=
  (log.filter fun m => m.level.rank ≤ level.rank).map Message.line

end PointsTo
