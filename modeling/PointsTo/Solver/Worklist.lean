import PointsTo.Analysis
import PointsTo.Options

/-!
# Worklists

A worklist holds what the solver has yet to take up: objects that flow into a pointer, and call
edges. New items go to the end; the oldest or the newest one is taken first, as
`Worklist.order` says.
-/

namespace PointsTo

/-- An item of the worklist. -/
inductive WorkItem where
  /-- Objects that flow into a pointer. -/
  | objects (p : Pointer) (os : PointsToSet)
  /-- A call edge from `caller`. -/
  | edge (caller : CtxMethod) (e : CtxEdge)

/-- A worklist. -/
structure Worklist where
  order : WorklistOrder
  /-- The items, the oldest first. -/
  items : List WorkItem := []

namespace Worklist

/-- The worklist with one more item. -/
def push (w : Worklist) (i : WorkItem) : Worklist :=
  { w with items := w.items ++ [i] }

/-- The next item and the worklist without it. -/
def pop? (w : Worklist) : Option (WorkItem × Worklist) :=
  match w.order with
  | .fifo => w.items.head?.map fun i => (i, { w with items := w.items.tail })
  | .lifo => w.items.getLast?.map fun i => (i, { w with items := w.items.dropLast })

end Worklist

end PointsTo
