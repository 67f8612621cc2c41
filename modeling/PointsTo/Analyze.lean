import PointsTo.CallGraph.Compare
import PointsTo.Files
import PointsTo.Solver.Run

/-!
# The whole analysis

`analyze` resolves the entries, runs the solver, and writes and compares the call graph as the
options ask. It leaves a `Report`.
-/

namespace PointsTo

/-- What an analysis leaves behind. -/
structure Report where
  verdict : Verdict Unit
  analysis : Analysis
  /-- What plugins have written. -/
  journal : List String
  files : Files
  /-- What was printed. -/
  printed : Option String := none

/-- The methods that signatures name; the first one without a method is an error. -/
def resolveEntries : List String → Elements → Except Error (List MethodId) × Elements
  | [], e => (.ok [], e)
  | s :: rest, e =>
    match e.resolve s with
    | (.error err, e) => (.error err, e)
    | (.ok none, e) => (.error (.unknownEntry s), e)
    | (.ok (some m), e) =>
      match resolveEntries rest e with
      | (.error err, e) => (.error err, e)
      | (.ok ms, e) => (.ok (m :: ms), e)

namespace Report

/-- Writes to the log. -/
def tell (r : Report) (level : Level) (text : String) : Report :=
  { r with analysis := { r.analysis with elements := r.analysis.elements.tell level text } }

/-- The report of a failure. -/
def failed (r : Report) (e : Error) : Report := { r with verdict := .failed e }

/-- The call graph that is dumped and compared. -/
def dumpText (r : Report) : String := MethodGraph.dump r.analysis.elements r.analysis.methodGraph

/-- Dumps the call graph. -/
def dump (r : Report) : DumpTarget → Report
  | .stdout => { r with printed := some r.dumpText }
  | .file path =>
    let r := r.tell .info ("Dumping call graph to " ++ path ++ " ...")
    match r.files.write path r.dumpText with
    | .ok files => { r with files }
    | .error e => r.failed e

/-- Compares the call graph with a file. -/
def compare (r : Report) (path : String) : Report :=
  let r := r.tell .info ("Comparing call graph with " ++ path ++ " ...")
  match r.files.read path with
  | .error e => r.failed e
  | .ok text =>
    match MethodGraph.compare r.analysis.elements r.analysis.methodGraph text with
    | .ok () => r
    | .error e => r.failed e

/-- Goes on with `f`, unless there was a failure. -/
def andThen (r : Report) (f : Report → Report) : Report :=
  match r.verdict with
  | .done () => f r
  | _ => r

end Report

/-- Runs the analysis with a plugin, which may have been built against the tables `e`, in at most
`fuel` tasks. The call graph is then dumped and compared as the options ask. -/
def analyze (fuel : Nat) (P : Plugin) (e : Elements) (journal : List String) (o : Options)
    (files : Files) : Report :=
  match resolveEntries o.entries e with
  | (.error err, e) =>
    { verdict := .failed err, analysis := { elements := e }, journal, files }
  | (.ok entries, e) =>
    let e := e.tell .info ("Pointer analysis from " ++ Text.decimal entries.length ++
      " entries (" ++ o.worklist.label ++ " worklist, " ++ o.context.label ++ " contexts)")
    let run := (Solver.create P e journal entries o.context o.worklist).solve fuel
    let r : Report :=
      { verdict := run.2
        analysis := run.1.core.analysis
        journal := run.1.core.journal
        files }
    let r := r.andThen fun r => (o.dump.map r.dump).getD r
    r.andThen fun r => (o.compare.map r.compare).getD r

end PointsTo
