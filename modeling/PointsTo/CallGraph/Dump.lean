import PointsTo.Analysis
import PointsTo.Elements.Text
import PointsTo.Sorting

/-!
# Dumps of call graphs

A dump lists the reachable methods of a call graph and, for each call site with callees, these. It
is sorted, so that it depends on the graph only and not on the order in which the graph grew.

* `MethodGraph.dump` writes a call graph;
* `MethodGraph.sortedSites` are the call sites in the order of the dump.
-/

namespace PointsTo

/-- What stands between a call site and its callees. -/
def edgeMark : String := " -> "

namespace MethodGraph

variable (e : Elements) (g : MethodGraph)

/-- The methods, sorted by signature. -/
def sortedMethods : List MethodId :=
  Sorting.sort (fun a b => e.program.signature a ≤ e.program.signature b) g.methods.toList

/-- The call sites of a method in the order of their calls. -/
def sortedSitesIn (m : MethodId) : List SiteId :=
  Sorting.sort (fun a b => e.siteIndex a ≤ e.siteIndex b) (g.sitesIn m)

/-- The call sites of all methods in the order of the dump. -/
def sortedSites : List SiteId :=
  (sortedMethods e g).flatMap (sortedSitesIn e g)

/-- The signatures of the callees of a call site, sorted and each once. -/
def calleeSignatures (s : SiteId) : List String :=
  Sorting.sort (fun a b => a ≤ b) ((g.calleesOf s).toList.map e.program.signature).eraseDups

/-- The callees of a call site as one text. -/
def calleesText (s : SiteId) : String :=
  "[" ++ Text.joined ", " (calleeSignatures e g s) ++ "]"

/-- Whether a call site has a callee. -/
def isResolved (s : SiteId) : Bool := !(g.calleesOf s).isEmpty

/-- The line for a call site with its callees. -/
def edgeLine (s : SiteId) : String :=
  e.siteText s ++ edgeMark ++ calleesText e g s

/-- The lines of the dump. -/
def dumpLines : List String :=
  ["#reachable methods: " ++ Text.decimal g.methodCount,
   "---------- Reachable methods: ----------"] ++
  (sortedMethods e g).map e.program.signature ++
  ["",
   "#call graph edges: " ++ Text.decimal g.edgeCount,
   "---------- Call graph edges: ----------"] ++
  ((sortedSites e g).filter (isResolved g)).map (edgeLine e g) ++
  ["----------------------------------------"]

/-- The dump: its lines, each with a line end. -/
def dump : String :=
  String.join ((dumpLines e g).map fun l => l ++ "\n")

end MethodGraph

end PointsTo
