import PointsTo.CallGraph.Dump
import PointsTo.Labels

/-!
# Snapshots

A snapshot shows all that an analysis has found, sorted and with labels in place of numbers
(`Analysis.snapshot`). `Analysis.counts` are the sizes of its tables.
-/

namespace PointsTo

/-- The sizes of the tables of an analysis. -/
structure Counts where
  methods : Nat
  fields : Nat
  vars : Nat
  stmts : Nat
  contexts : Nat
  objs : Nat
  pointers : Nat
  /-- The sum of the sizes of all points-to sets. -/
  facts : Nat
  ctxMethods : Nat
  ctxEdges : Nat

/-- What a snapshot shows of a method. -/
structure MethodEntry where
  method : MethodId
  signature : String
  built : Bool

/-- What a snapshot shows of a variable. -/
structure VarEntry where
  label : String
  type : String
  /-- The number of its pointers. -/
  pointers : Nat
  /-- The objects over all contexts. -/
  objs : List String
  allocSites : List String
  /-- The objects in the empty context. -/
  plainObjs : List String

/-- All that an analysis has found. -/
structure Snapshot where
  counts : Counts
  methods : List MethodEntry
  reachable : List MethodId
  /-- The entries, each with the methods that calls lead to. -/
  entries : List (MethodId × List MethodId)
  ctxMethods : List String
  ctxEdges : List String
  ctxSites : List String
  pointers : List (String × List String)
  vars : List VarEntry
  dump : List String

/-- Whether one list of texts comes before another, or is the same. -/
def textsLe : List String → List String → Bool
  | [], _ => true
  | _ :: _, [] => false
  | a :: as, b :: bs => a < b || (a = b && textsLe as bs)

namespace Analysis

variable (a : Analysis)

/-- The sizes of the tables. -/
def counts : Counts where
  methods := a.elements.methods.size
  fields := a.elements.fields.size
  vars := a.elements.vars.length
  stmts := a.elements.stmts.length
  contexts := a.contexts.size
  objs := a.heap.objs.size
  pointers := a.heap.pointers.size
  facts := (a.heap.pointers.values.flatMap OrderedSet.toList).length
  ctxMethods := a.calls.methodCount
  ctxEdges := a.calls.edgeCount

/-- What a snapshot shows of a variable. -/
def varEntry (v : VarId) : VarEntry where
  label := a.elements.varLabel v
  type := a.elements.program.typeName (a.elements.var v).ty
  pointers := (a.heap.pointersOf v).length
  objs := a.objLabels (a.pointsToVar v)
  allocSites := sortedTexts ((a.allocSites v).map a.elements.stmtLabel)
  plainObjs := a.objLabels (a.pointsTo (.var [] v))

/-- All that the analysis has found. -/
def snapshot : Snapshot :=
  let e := a.elements
  let g := a.methodGraph
  { counts := a.counts
    methods := (sortedById e.methods.keys).map fun m => ⟨m, e.program.signature m, e.isBuilt m⟩
    reachable := sortedById a.reachableMethods
    entries := g.entries.map fun m => (m, sortedById (g.reachableFrom m))
    ctxMethods := sortedTexts (a.calls.methods.toList.map e.ctxMethodLabel)
    ctxEdges := sortedTexts (a.calls.edges.map e.edgeLabel)
    ctxSites := sortedTexts (a.calls.methods.toList.flatMap fun m =>
      (a.calls.sitesIn m).map fun s => e.ctxMethodLabel m ++ " " ++ e.ctxSiteLabel s)
    pointers := Sorting.sort (fun x y => x.1 < y.1 || (x.1 = y.1 && textsLe x.2 y.2))
      (a.heap.pointers.entries.map fun (p, os) => (a.pointerLabel p, a.objLabels os.toList))
    vars := Sorting.sort (fun x y => x.label ≤ y.label) (e.vars.map a.varEntry)
    dump := (Text.lines (MethodGraph.dump e g).toList).map String.ofList }

end Analysis

end PointsTo
