import PointsTo.CallGraph.Basic
import PointsTo.Elements.Basic
import PointsTo.Heap

/-!
# Results of the analysis

What an analysis has found: the element tables, the objects and pointers, the contexts in use and
the call graph over methods in contexts. After solving, this is the result.

* `Analysis.pointsTo` and `Analysis.pointsToVar` are the objects of a pointer and of a variable over
  all contexts, `Analysis.allocSites` the allocations they come from;
* `Analysis.reachableMethods` lists the methods, whatever their contexts;
* `Analysis.methodGraph` is the call graph with the contexts left out.
-/

namespace PointsTo

/-- A method in a context. -/
structure CtxMethod where
  ctx : Context
  method : MethodId
deriving DecidableEq

/-- A call site in a context. -/
structure CtxSite where
  ctx : Context
  site : SiteId
deriving DecidableEq

/-- A call edge between methods in contexts. -/
abbrev CtxEdge := CallEdge CtxSite CtxMethod

/-- A call graph over plain methods. -/
abbrev MethodGraph := CallGraph SiteId MethodId

/-- What an analysis has found. -/
structure Analysis where
  elements : Elements
  heap : Heap := ∅
  contexts : Contexts := .initial
  /-- The call graph over methods in contexts. -/
  calls : CallGraph CtxSite CtxMethod := ∅

namespace Analysis

/-- The objects that a pointer refers to, in order of creation. -/
def pointsTo (a : Analysis) (p : Pointer) : List Obj :=
  a.heap.inOrder fun o => o ∈ a.heap.pointsTo p

/-- The objects that a variable refers to in any context, in order of creation. -/
def pointsToVar (a : Analysis) (v : VarId) : List Obj :=
  let sets := (a.heap.pointersOf v).map a.heap.pointsTo
  a.heap.inOrder fun o => sets.any fun os => o ∈ os

/-- The allocations of the objects that a variable refers to, in order of creation. -/
def allocSites (a : Analysis) (v : VarId) : List StmtId :=
  let sites := (a.pointsToVar v).map Obj.site
  a.elements.stmts.filter (· ∈ sites)

/-- The methods that are reachable in some context, in order of discovery. -/
def reachableMethods (a : Analysis) : List MethodId :=
  (a.calls.methods.toList.map CtxMethod.method).eraseDups

/-- The call sites recorded in some context with their methods, each once, in order. -/
def recordedSites (a : Analysis) : List (MethodId × SiteId) :=
  (a.calls.methods.toList.flatMap fun m => (a.calls.sitesIn m).map fun s => (m.method, s.site))
    |>.eraseDupsBy fun x y => x.2 == y.2

/-- The call graph with the contexts left out. The caller of an edge is the method that its call
site belongs to. -/
def methodGraph (a : Analysis) : MethodGraph :=
  let g := a.calls.entries.foldl (fun g m => g.addEntry m.method) (∅ : MethodGraph)
  let g := a.reachableMethods.foldl CallGraph.addMethod g
  let g := a.recordedSites.foldl (fun g s => g.addSite s.1 s.2) g
  a.calls.edges.foldl
    (fun g e => g.addEdge e.site.site.method ⟨e.kind, e.site.site, e.callee.method⟩) g

end Analysis

end PointsTo
