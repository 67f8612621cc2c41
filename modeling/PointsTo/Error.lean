import PointsTo.Text.Numeral
import PointsTo.Text.Quoted

/-!
# Errors

Everything that can go wrong (`Error`), and how it is told (`Error.message`).
-/

namespace PointsTo

/-- What is done with a file when it fails. -/
inductive FileAction where
  | read
  | write
deriving DecidableEq

/-- The causes of failure. -/
inductive Error where
  /-- A body holds a value where it cannot be handled. -/
  | lowering (value method : String)
  /-- The opcode of an invocation is none of the five known ones. -/
  | classification (invocation : String) (opcode : UInt8) (method : String)
  | malformedSignature (text : String)
  /-- A plugin registers a second handler for a method. -/
  | duplicateHandler (plugin method : String)
  /-- No implementation of a subsignature exists for the class of a receiver object. -/
  | unresolvedCall (subsignature cls site : String)
  | unknownEntry (signature : String)
  | invalidOption (option value : String)
  | file (action : FileAction) (path : String)
  /-- A call graph differs from the dump it is compared with. -/
  | callGraphMismatch (mismatches : List String)
deriving DecidableEq

/-- The text of a file action. -/
def FileAction.verb : FileAction → String
  | .read => "read"
  | .write => "write"

/-- The text of an error. -/
def Error.message : Error → String
  | .lowering value method => "cannot handle value " ++ value ++ " in " ++ method
  | .classification invocation opcode method =>
    "cannot classify invocation " ++ invocation ++ " (opcode " ++ Text.byte opcode ++ ") in " ++
      method
  | .malformedSignature text => "malformed method signature: " ++ text
  | .duplicateHandler plugin method =>
    plugin ++ " registers multiple handlers for " ++ method ++
      " (at most one handler can be registered for a method)"
  | .unresolvedCall subsignature cls site =>
    "cannot resolve " ++ subsignature ++ " on " ++ cls ++ " at call site " ++ site
  | .unknownEntry signature => "entry method " ++ signature ++ " does not exist in the program"
  | .invalidOption option value =>
    "invalid value " ++ Text.quoted value ++ " for option " ++ option
  | .file action path => "failed to " ++ action.verb ++ " call graph file " ++ path
  | .callGraphMismatch mismatches =>
    "mismatches of call graph\n" ++ String.intercalate "\n" mismatches

end PointsTo
