import PointsTo.ContextPolicy
import PointsTo.Text.Blank
import PointsTo.Text.Pieces

/-!
# Options of an analysis

An analysis is configured by five variables, each of which may be unset. Blanks around a value do
not count. `Options.read` reads the variables in a fixed order and stops at the first invalid one.
-/

namespace PointsTo

/-- Which end of the worklist is taken next. -/
inductive WorklistOrder where
  /-- The oldest item first. -/
  | fifo
  /-- The newest item first. -/
  | lifo
deriving DecidableEq, Inhabited

namespace WorklistOrder

/-- The option that chooses the order. -/
def option : String := "PTA_WORKLIST"

/-- Reads an order. -/
def parse (s : String) : Except Error WorklistOrder :=
  if s = "fifo" then .ok .fifo
  else if s = "lifo" then .ok .lifo
  else .error (.invalidOption option s)

/-- The order in messages. -/
def label : WorklistOrder → String
  | .fifo => "Fifo"
  | .lifo => "Lifo"

end WorklistOrder

/-- Where the call graph is dumped after solving. -/
inductive DumpTarget where
  | stdout
  | file (path : String)
deriving DecidableEq

/-- The configuration of an analysis. -/
structure Options where
  /-- The signatures of the entry methods. -/
  entries : List String := []
  worklist : WorklistOrder := .fifo
  context : ContextPolicy := .insensitive
  /-- Where to dump the call graph, if at all. -/
  dump : Option DumpTarget := none
  /-- The dump to compare the call graph with. -/
  compare : Option String := none
deriving DecidableEq, Inhabited

namespace Options

/-- The non-blank pieces of a list of signatures that semicolons separate. -/
def readEntries (s : String) : List String :=
  ((Text.splitOn ';' s.toList).map Text.trim).filterMap fun piece =>
    if piece.isEmpty then none else some (String.ofList piece)

/-- A dash means the standard output, any other text that is not blank a file. -/
def readDump (s : String) : Option DumpTarget :=
  let path := Text.trimmed s
  if path = "" then none else if path = "-" then some .stdout else some (.file path)

/-- The options given by the variables of an environment. -/
def read (lookup : String → Option String) : Except Error Options := do
  let entries := ((lookup "PTA_ENTRIES").map readEntries).getD []
  let worklist ← match lookup WorklistOrder.option with
    | none => pure .fifo
    | some s => WorklistOrder.parse (Text.trimmed s)
  let context ← match lookup ContextPolicy.option with
    | none => pure .insensitive
    | some s => ContextPolicy.parse (Text.trimmed s)
  let dump := (lookup "PTA_DUMP_CALL_GRAPH").bind readDump
  let compare := (lookup "PTA_COMPARE_CALL_GRAPH").bind fun s =>
    let path := Text.trimmed s
    if path = "" then none else some path
  pure { entries, worklist, context, dump, compare }

end Options

end PointsTo
