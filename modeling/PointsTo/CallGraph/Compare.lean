import PointsTo.CallGraph.Dump

/-!
# Comparison with a dump

A call graph is compared with the text of a dump: each call site must have the callees that the
text gives for it. `MethodGraph.mismatches` lists the differences, one message for each call site:
first for the call sites of the graph, in the order of a dump, then for those that only the text
has, sorted.
-/

namespace PointsTo

/-- The call sites of a dump with their callees. When a call site has several lines, the last one
counts. -/
def expectedCallees (text : String) : List (String × String) :=
  let edges := (Text.lines text.toList).filterMap (Text.cut? edgeMark.toList)
  (edges.map fun x => (String.ofList x.1, String.ofList x.2)).reverse.eraseDupsBy
    fun x y => x.1 == y.1

namespace MethodGraph

variable (e : Elements) (g : MethodGraph)

/-- A difference between the callees that a dump gives for a call site and those it has. -/
def mismatch (site : String) (expected given : Option String) : String :=
  site ++ ", expected: " ++ expected.getD "null" ++ ", given: " ++ given.getD "null"

/-- The message for a call site of the graph, if its callees are not the expected ones. A call site
without callees need not be in the dump. -/
def siteMismatch? (expected : List (String × String)) (s : SiteId) : Option String :=
  let wanted := expected.lookup (e.siteText s)
  let callees := calleesText e g s
  if wanted = some callees || (!isResolved g s && wanted.isNone) then none
  else some (mismatch (e.siteText s) wanted (some callees))

/-- The call sites of a dump that the graph has not, sorted. -/
def missing (expected : List (String × String)) : List (String × String) :=
  let given := (sortedSites e g).map e.siteText
  Sorting.sort (fun x y => x.1 ≤ y.1) (expected.filter fun x => x.1 ∉ given)

/-- The differences between a call graph and the text of a dump. -/
def mismatches (text : String) : List String :=
  let expected := expectedCallees text
  (sortedSites e g).filterMap (siteMismatch? e g expected) ++
    (missing e g expected).map fun x => mismatch x.1 (some x.2) none

/-- Compares a call graph with the text of a dump. -/
def compare (text : String) : Except Error Unit :=
  match mismatches e g text with
  | [] => .ok ()
  | ms => .error (.callGraphMismatch ms)

end MethodGraph

end PointsTo
