import PointsTo.Solver.Task

/-!
# Running the solver

The solver carries out tasks from an agenda. What a task calls for is done before the rest of the
agenda; when a task fails, the rest is dropped and the state stays as it is. A number of tasks is
given as a bound, so that a run always ends.

* `Solver.perform` carries out a task, with the plugins;
* `Solver.settle` carries out an agenda;
* `Solver.step` takes up one item of the worklist, `Solver.solve` all of them.
-/

namespace PointsTo

/-- A solver with a plugin. -/
structure Solver (P : Plugin) where
  core : Core
  /-- The memory of the plugin. -/
  memory : P.Memory := P.memory

/-- How a run ended. -/
inductive Verdict (α : Type) where
  | done (a : α)
  | failed (e : Error)
  /-- The bound on the number of tasks was reached. -/
  | unfinished

namespace Solver

variable {P : Plugin}

/-- A solver before its run. -/
def create (P : Plugin) (e : Elements) (journal : List String) (entries : List MethodId)
    (policy : ContextPolicy) (order : WorklistOrder) : Solver P :=
  { core := { analysis := { elements := e }, policy, worklist := { order }, entries, journal } }

/-- Lets the plugin react to an event. The statements that it queues are run next. -/
def announce (s : Solver P) (e : Event) : Solver P × List Task :=
  let c := s.core
  let r := (P.react e s.memory).run
    { analysis := c.analysis, ignored := c.ignored, journal := c.journal }
  let core := { c with
    analysis := r.2.analysis, ignored := r.2.ignored, journal := r.2.journal }
  (⟨core, r.1⟩, r.2.pending.map fun x => .exec x.1 x.2 true)

/-- Carries out a task. -/
def perform (s : Solver P) (t : Task) : Solver P × Except Error (List Task) :=
  match t with
  | .announce e => ((s.announce e).1, .ok (s.announce e).2)
  | t => ({ s with core := (s.core.perform t).1 }, (s.core.perform t).2)

/-- Carries out an agenda, in at most `fuel` tasks. -/
def settle (fuel : Nat) (agenda : List Task) (s : Solver P) : Solver P × Verdict Unit :=
  match fuel, agenda with
  | _, [] => (s, .done ())
  | 0, _ :: _ => (s, .unfinished)
  | fuel + 1, t :: rest =>
    match s.perform t with
    | (s, .ok ts) => settle fuel (ts ++ rest) s
    | (s, .error e) => (s, .failed e)

/-- A finished run stays as it is when the bound is raised. -/
theorem settle_add {fuel : Nat} {agenda : List Task} {s t : Solver P} {v : Verdict Unit}
    (h : s.settle fuel agenda = (t, v)) (hv : v ≠ .unfinished) (more : Nat) :
    s.settle (fuel + more) agenda = (t, v) := by
  induction fuel generalizing agenda s with
  | zero =>
    cases agenda with
    | nil => simpa [settle] using h
    | cons a rest => simp_all [settle]
  | succ n ih =>
    cases agenda with
    | nil => simpa [settle] using h
    | cons a rest =>
      rw [Nat.add_right_comm]
      unfold settle at h ⊢
      split at h <;> rename_i hp
      · simpa only [hp] using ih h
      · simpa only [hp] using h

/-- Starts the run, unless it has started. -/
def start (fuel : Nat) (s : Solver P) : Solver P × Verdict Unit :=
  s.settle fuel [.begin]

/-- Starts the run if need be, and takes up one item of the worklist. The answer says whether there
was one. -/
def step (fuel : Nat) (s : Solver P) : Solver P × Verdict Bool :=
  match s.start fuel with
  | (s, .done ()) =>
    let more := !s.core.worklist.items.isEmpty
    match s.settle fuel [.next] with
    | (s, .done ()) => (s, .done more)
    | (s, .failed e) => (s, .failed e)
    | (s, .unfinished) => (s, .unfinished)
  | (s, .failed e) => (s, .failed e)
  | (s, .unfinished) => (s, .unfinished)

/-- The tasks of a whole run. What plugins inject at the end is taken up as well. -/
def agenda : List Task := [.begin, .drain, .announce .finish, .drain, .statistics]

/-- Runs the solver to the end. -/
def solve (fuel : Nat) (s : Solver P) : Solver P × Verdict Unit :=
  s.settle fuel agenda

end Solver

end PointsTo
