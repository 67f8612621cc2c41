import PointsTo.Labels
import PointsTo.Plugin.Basic

/-!
# Recorders

A recorder is a plugin that only observes: it writes a line to the journal for each event of the
kinds it listens to (`recorder`).
-/

namespace PointsTo

/-- The kinds of events. -/
inductive EventKind where
  | start
  | finish
  | method
  | stmt
  | ctxMethod
  | pointsTo
  | edge
  | unresolved
deriving DecidableEq

/-- The name of a kind of events. -/
def EventKind.label : EventKind → String
  | .start => "start"
  | .finish => "finish"
  | .method => "method"
  | .stmt => "stmt"
  | .ctxMethod => "cs_method"
  | .pointsTo => "pts"
  | .edge => "edge"
  | .unresolved => "unresolved"

/-- All kinds of events. -/
def EventKind.all : List EventKind :=
  [.start, .finish, .method, .stmt, .ctxMethod, .pointsTo, .edge, .unresolved]

/-- The kind of events with a name. -/
def EventKind.read? (s : String) : Option EventKind :=
  EventKind.all.find? fun k => k.label = s

/-- The kind of an event. -/
def Event.kind : Event → EventKind
  | .start => .start
  | .finish => .finish
  | .newMethod _ => .method
  | .newStmt _ _ => .stmt
  | .newCtxMethod _ => .ctxMethod
  | .newPointsTo _ _ _ => .pointsTo
  | .newCallEdge _ => .edge
  | .unresolvedCall _ => .unresolved

/-- What there is to tell about an event besides its kind. -/
def Event.details (v : View) : Event → Option String
  | .start | .finish => none
  | .newMethod m => v.analysis.elements.program.signature m
  | .newStmt s m =>
    let e := v.analysis.elements
    some (e.stmtLabel s ++ " " ++ e.stmtText s ++ " | " ++ e.program.signature m)
  | .newCtxMethod m => v.analysis.elements.ctxMethodLabel m
  | .newPointsTo ctx x delta =>
    some (v.analysis.pointerLabel (.var ctx x) ++ " += " ++
      Text.joined " " (v.analysis.objLabels delta.toList))
  | .newCallEdge e =>
    some (v.analysis.elements.edgeLabel e ++
      if e.callee.method ∈ v.ignored then " (ignored)" else "")
  | .unresolvedCall s => v.analysis.elements.ctxSiteLabel s

/-- The line of a recorder for an event. -/
def Event.line (v : View) (name : String) (e : Event) : String :=
  name ++ ": " ++ e.kind.label ++ ((e.details v).map (" " ++ ·)).getD ""

/-- The plugin that writes a line for each event of the given kinds. -/
def recorder (name : String) (kinds : List EventKind) : Plugin where
  Memory := Unit
  memory := ()
  react e _ :=
    if e.kind ∈ kinds then .look fun v => .note (e.line v name) (.done ()) else .done ()

end PointsTo
