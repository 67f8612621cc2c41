import PointsTo.Analysis
import PointsTo.Elements.Request

/-!
# Plugins

A plugin follows a run of the solver and can extend the program under analysis. The solver
announces what happens (`Event`), and the plugin reacts with a `Hook`: it looks at the analysis,
makes requests to the element tables, has methods ignored, queues statements for the solver and
writes to the journal. It has no other way to act; in particular points-to sets and the call graph
are not in its reach.

* `Hook` are the reactions, `Hook.run` carries one out;
* `Plugin` is a memory with a reaction to every event;
* `Plugin.sequence` lets several plugins react one after the other.
-/

namespace PointsTo

/-- What the solver announces. -/
inductive Event where
  /-- The run starts; no method is reachable yet. -/
  | start
  /-- The worklist is exhausted. -/
  | finish
  /-- A method became reachable for the first time. -/
  | newMethod (m : MethodId)
  /-- A statement of the body of a method that became reachable for the first time. -/
  | newStmt (s : StmtId) (container : MethodId)
  /-- A method became reachable in a context, and its statements were added. -/
  | newCtxMethod (m : CtxMethod)
  /-- A variable in a context refers to further objects. -/
  | newPointsTo (ctx : Context) (v : VarId) (delta : PointsToSet)
  | newCallEdge (e : CtxEdge)
  /-- A dynamic call site, for which the solver finds no callees. -/
  | unresolvedCall (s : CtxSite)

/-- What a plugin sees. -/
structure View where
  analysis : Analysis
  ignored : OrderedSet MethodId

/-- A reaction of a plugin. -/
inductive Hook (α : Type) where
  | done (a : α)
  /-- Looks at the analysis. -/
  | look (k : View → Hook α)
  /-- Makes a request to the element tables. -/
  | ask (r : Request) (k : r.Answer → Hook α)
  /-- Keeps the solver from lowering and solving the body of a method. -/
  | ignore (m : MethodId) (next : Hook α)
  /-- Queues statements that the solver runs in a method in a context. -/
  | inject (m : CtxMethod) (stmts : List StmtId) (next : Hook α)
  /-- Writes a line to the journal. -/
  | note (line : String) (next : Hook α)

/-- What a hook works on. -/
structure Stage where
  analysis : Analysis
  ignored : OrderedSet MethodId
  /-- The queued statements. -/
  pending : List (CtxMethod × StmtId) := []
  journal : List String := []

namespace Hook

/-- One hook after the other. -/
def bind {α β : Type} : Hook α → (α → Hook β) → Hook β
  | .done a, f => f a
  | .look k, f => .look fun v => (k v).bind f
  | .ask r k, f => .ask r fun a => (k a).bind f
  | .ignore m next, f => .ignore m (next.bind f)
  | .inject m stmts next, f => .inject m stmts (next.bind f)
  | .note line next, f => .note line (next.bind f)

instance : Monad Hook where
  pure := .done
  bind := .bind

/-- What there is to see. -/
def view : Hook View := .look .done

/-- A script as a hook. -/
def ofScript {α : Type} : Script α → Hook α
  | .done a => .done a
  | .look k => .look fun v => ofScript (k v.analysis.elements)
  | .ask r k => .ask r fun a => ofScript (k a)

instance : MonadLift Script Hook := ⟨ofScript⟩

/-- Carries out a hook. -/
def run {α : Type} : Hook α → Stage → α × Stage
  | .done a, s => (a, s)
  | .look k, s => (k ⟨s.analysis, s.ignored⟩).run s
  | .ask r k, s =>
    let answer := s.analysis.elements.serve r
    (k answer.1).run { s with analysis := { s.analysis with elements := answer.2 } }
  | .ignore m next, s => next.run { s with ignored := s.ignored.insert m }
  | .inject m stmts next, s => next.run { s with pending := s.pending ++ stmts.map (m, ·) }
  | .note line next, s => next.run { s with journal := s.journal ++ [line] }

variable {α β : Type}

theorem run_bind (h : Hook α) (f : α → Hook β) (s : Stage) :
    (h.bind f).run s = (f (h.run s).1).run (h.run s).2 := by
  induction h generalizing s with
  | done a => rfl
  | look k ih => exact ih _ s
  | ask r k ih => exact ih _ _
  | ignore m next ih => exact ih _
  | inject m stmts next ih => exact ih _
  | note line next ih => exact ih _

/-- Of the analysis, a hook changes the element tables only. -/
theorem run_analysis (h : Hook α) (s : Stage) :
    (h.run s).2.analysis =
      { s.analysis with elements := (h.run s).2.analysis.elements } := by
  induction h generalizing s with
  | done a => rfl
  | look k ih => exact ih _ s
  | ask r k ih => exact ih _ _
  | ignore m next ih => exact ih _
  | inject m stmts next ih => exact ih _
  | note line next ih => exact ih _

end Hook

/-- A plugin: a memory and a reaction to every event, which yields the memory that it keeps. -/
structure Plugin where
  Memory : Type
  /-- The memory before the run. -/
  memory : Memory
  react : Event → Memory → Hook Memory

namespace Plugin

/-- The plugin that does nothing. -/
def idle : Plugin := ⟨Unit, (), fun _ a => .done a⟩

/-- Two plugins that react one after the other. -/
def pair (p q : Plugin) : Plugin where
  Memory := p.Memory × q.Memory
  memory := (p.memory, q.memory)
  react e a := do
    let first ← p.react e a.1
    let second ← q.react e a.2
    return (first, second)

/-- Plugins that react one after the other. -/
def sequence : List Plugin → Plugin
  | [] => idle
  | p :: ps => p.pair (sequence ps)

end Plugin

end PointsTo
