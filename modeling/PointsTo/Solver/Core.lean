import PointsTo.Elements.Text
import PointsTo.FlowGraph
import PointsTo.Solver.Worklist

/-!
# The state of the solver

Besides what the analysis has found, the solver keeps the flow graph between pointers, the worklist,
and what it has to know about plugins: the methods to ignore and the statements they have injected.

* `Core.push` puts work on the worklist;
* `Core.link` lets one pointer flow into another;
* `Core.lower` lowers a method.
-/

namespace PointsTo

/-- The state of the solver. -/
structure Core where
  analysis : Analysis
  policy : ContextPolicy
  worklist : Worklist
  /-- The methods at which the run starts. -/
  entries : List MethodId
  /-- An edge between two pointers: what the first refers to, the second refers to. -/
  flow : FlowGraph Pointer := ∅
  /-- The methods whose bodies are not analysed. -/
  ignored : OrderedSet MethodId := ∅
  /-- The methods that were reachable in some context before. -/
  seen : OrderedSet MethodId := ∅
  /-- The injected statements that depend on a pointer. -/
  watchers : Table Pointer (List StmtId) := ∅
  /-- How many items were taken from the worklist. -/
  iterations : Nat := 0
  /-- Whether the run has started. -/
  started : Bool := false
  /-- What plugins have written, in order. -/
  journal : List String := []

namespace Core

/-- The element tables. -/
def elements (c : Core) : Elements := c.analysis.elements

/-- The program under analysis. -/
def program (c : Core) : Program := c.elements.program

/-- The state with other element tables. -/
def withElements (c : Core) (e : Elements) : Core :=
  { c with analysis := { c.analysis with elements := e } }

/-- Writes to the log. -/
def tell (c : Core) (level : Level) (text : String) : Core :=
  c.withElements (c.elements.tell level text)

/-- Puts an item on the worklist. -/
def push (c : Core) (i : WorkItem) : Core :=
  { c with worklist := c.worklist.push i }

/-- Brings a context into use. -/
def useContext (c : Core) (x : Context) : Core :=
  { c with analysis := { c.analysis with contexts := c.analysis.contexts.use x } }

/-- Creates an object, unless it exists. -/
def addObj (c : Core) (o : Obj) (ty : Ty) : Core :=
  { c with analysis := { c.analysis with heap := c.analysis.heap.addObj o ty } }

/-- Creates a pointer, unless it exists. -/
def addPointer (c : Core) (p : Pointer) : Core :=
  { c with analysis := { c.analysis with heap := c.analysis.heap.addPointer p } }

/-- Changes the call graph. -/
def modifyCalls (c : Core) (f : CallGraph CtxSite CtxMethod → CallGraph CtxSite CtxMethod) : Core :=
  { c with analysis := { c.analysis with calls := f c.analysis.calls } }

/-- The objects that a pointer refers to. -/
def pointsTo (c : Core) (p : Pointer) : PointsToSet := c.analysis.heap.pointsTo p

/-- Lets a pointer refer to further objects. -/
def extend (c : Core) (p : Pointer) (os : PointsToSet) : Core :=
  { c with analysis := { c.analysis with heap := c.analysis.heap.extend p os } }

/-- Lets the pointer `a` flow into `b`; both are created if need be. When the edge is new, what `a`
refers to is on its way to `b`. -/
def link (c : Core) (a b : Pointer) : Core :=
  let c := (c.addPointer a).addPointer b
  if c.flow.hasEdge a b then c
  else
    let c := { c with flow := c.flow.addEdge a b }
    if (c.pointsTo a).isEmpty then c else c.push (.objects b (c.pointsTo a))

/-- Lowers a method, unless that was done before. -/
def lower (c : Core) (m : MethodId) : Except Error Unit × Core :=
  let r := c.elements.lower m
  (r.1, c.withElements r.2)

end Core

end PointsTo
