import PointsTo.Proofs.Injection
import PointsTo.Proofs.Plugin.Conduct

/-!
# What plugins are told

The events that are announced in the course of a run, in order, make up its log. An announcement
comes with what there was to see, and with the statements that plugins queued in reaction.

* `Solver.moments`: the states of a run, each with the task that is carried out next;
* `Solver.settle_moments`: what every task keeps, with the moments so far, a run keeps;
* `Solver.announcements`: the announcements while an agenda is carried out;
* `Solver.settle_announcements`: what every task keeps, with the log so far, a run keeps;
* `Solver.announce_heeds`: what an announcement to a local plugin does to the state;
* `Plugin.attend`: how a plugin that observes takes in the log.
-/

namespace PointsTo

/-- What plugins are told at one moment of a run. -/
structure Announcement where
  event : Event
  /-- What there is to see. -/
  view : View
  /-- The statements that are queued in reaction. -/
  queued : List (CtxMethod × StmtId)

/-- The memory of a plugin that observes, and the journal, after one more announcement. -/
def Plugin.attend (p : Plugin) (state : p.Memory × List String) (x : Announcement) :
    p.Memory × List String :=
  let r := (p.react x.event state.1).hear x.view
  (r.1, state.2 ++ r.2)

namespace Solver

variable {P : Plugin} {s s' : Solver P} {t : Task} {ts rest agenda : List Task} {fuel : Nat}

/-- The states in which the tasks of an agenda are carried out, each with its task. -/
def moments : Nat → List Task → Solver P → List (Solver P × Task)
  | fuel + 1, t :: rest, s =>
    (s, t) :: match s.perform t with
      | (s', .ok ts) => moments fuel (ts ++ rest) s'
      | (_, .error _) => []
  | _, _, _ => []

/-- A relation between the state, what is still to be done and the moments so far that every task
keeps, is kept by a run that ends. -/
theorem settle_moments {I : Solver P → List Task → List (Solver P × Task) → Prop}
    (hstep : ∀ {s t rest past s' ts}, I s (t :: rest) past → s.perform t = (s', .ok ts) →
      I s' (ts ++ rest) (past ++ [(s, t)]))
    {past : List (Solver P × Task)} (h : I s agenda past)
    (hs : s.settle fuel agenda = (s', .done ())) : I s' [] (past ++ s.moments fuel agenda) := by
  induction fuel generalizing s agenda past with
  | zero =>
    cases agenda with
    | nil =>
      cases hs
      simpa [moments] using h
    | cons t rest => cases hs
  | succ fuel ih =>
    cases agenda with
    | nil =>
      cases hs
      simpa [moments] using h
    | cons t rest =>
      obtain ⟨n, s₁, ts, hn, hp, hrest⟩ := settle_cons hs
      cases hn
      have hend := ih (hstep h hp) hrest
      simpa only [moments, hp, List.append_assoc, List.singleton_append] using hend

/-- The announcement that a task makes, if it makes one. -/
def announced (s : Solver P) : Task → List Announcement
  | .announce e => [⟨e, ⟨s.core.analysis, s.core.ignored⟩, s.queue (.announce e)⟩]
  | _ => []

theorem announced_eq_nil (s : Solver P) (ht : ∀ x, t ≠ .announce x) : s.announced t = [] := by
  cases t with
  | announce x => exact absurd rfl (ht x)
  | _ => rfl

/-- The announcements while an agenda is carried out, in order. -/
def announcements : Nat → List Task → Solver P → List Announcement
  | fuel + 1, t :: rest, s =>
    match s.perform t with
    | (s', .ok ts) => s.announced t ++ announcements fuel (ts ++ rest) s'
    | (_, .error _) => []
  | _, _, _ => []

/-- The announcements that are made in the moments of a run. -/
def heard (past : List (Solver P × Task)) : List Announcement :=
  past.flatMap fun y => y.1.announced y.2

theorem heard_concat (past : List (Solver P × Task)) (s : Solver P) (t : Task) :
    heard (past ++ [(s, t)]) = heard past ++ s.announced t := by
  rw [heard, List.flatMap_append, List.flatMap_singleton, heard]

theorem heard_moments (s : Solver P) (agenda : List Task) (fuel : Nat) :
    heard (s.moments fuel agenda) = s.announcements fuel agenda := by
  induction fuel generalizing s agenda with
  | zero => rfl
  | succ fuel ih =>
    cases agenda with
    | nil => rfl
    | cons t rest =>
      rw [moments, announcements, heard, List.flatMap_cons]
      split <;> rename_i hp
      · exact congrArg _ (ih _ _)
      · -- announcements do not fail
        have hno : s.announced t = [] := by
          refine s.announced_eq_nil ?_
          rintro x rfl
          cases hp
        rw [hno]
        rfl

/-- A relation between the state, what is still to be done and the log so far that every task keeps,
is kept by a run that ends. -/
theorem settle_announcements {I : Solver P → List Task → List Announcement → Prop}
    (hstep : ∀ {s t rest log s' ts}, I s (t :: rest) log → s.perform t = (s', .ok ts) →
      I s' (ts ++ rest) (log ++ s.announced t))
    {log : List Announcement} (h : I s agenda log) (hs : s.settle fuel agenda = (s', .done ())) :
    I s' [] (log ++ s.announcements fuel agenda) := by
  have hend : I s' [] (log ++ heard ([] ++ s.moments fuel agenda)) := by
    refine settle_moments (I := fun s tasks past => I s tasks (log ++ heard past)) ?_ ?_ hs
    · intro s t rest past s' ts h hp
      rw [heard_concat, ← List.append_assoc]
      exact hstep h hp
    · rwa [heard, List.flatMap_nil, List.append_nil]
  rwa [List.nil_append, heard_moments] at hend

end Solver

/-! ### One announcement -/

/-- What an announcement to a local plugin changes in the state. -/
structure Core.Heeds (e : Event) (c c' : Core) : Prop where
  elements : c.elements.Evolves c'.elements
  core_eq : c' = { c.withElements c'.elements with ignored := c'.ignored, journal := c'.journal }
  ignored_eq : e ≠ .start → c'.ignored = c.ignored

namespace Solver

variable {P : Plugin} {s s' : Solver P} {ts : List Task}

/-- The stage on which the plugin reacts. -/
def stage (s : Solver P) : Stage :=
  { analysis := s.core.analysis, ignored := s.core.ignored, journal := s.core.journal }

/-- Of the analysis, a plugin changes the tables only. -/
theorem announce_core (s : Solver P) (e : Event) :
    (s.announce e).1.core = { s.core.withElements (s.announce e).1.core.elements with
      ignored := (s.announce e).1.core.ignored
      journal := (s.announce e).1.core.journal } := by
  have hanalysis := (P.react e s.memory).run_analysis s.stage
  show Core.mk ((P.react e s.memory).run s.stage).2.analysis _ _ _ _ _ _ _ _ _ _ = _
  rw [hanalysis]
  rfl

/-- A local plugin keeps its memory in shape. The statements that it queues are of the method that
has become reachable in a context, for this context. -/
theorem announce_heeds {I : P.Memory → Prop} (hP : P.Local I) (hI : I s.memory) {e : Event}
    (hlocal : s.core.elements.Local) (hsound : s.core.elements.Sound)
    (hfits : e.Fits s.core.elements) :
    I (s.announce e).1.memory ∧ Core.Heeds e s.core (s.announce e).1.core ∧
      ∀ t ∈ (s.announce e).2, ∃ m id, t = .exec m id true ∧ e = .newCtxMethod m ∧
        id.method = m.method := by
  obtain ⟨hI', hheeds⟩ := hP.react e s.memory s.stage hI hlocal hsound hfits
  refine ⟨hI', ⟨hheeds.elements, s.announce_core e, hheeds.ignored_eq⟩, fun t ht => ?_⟩
  obtain ⟨more, hmore, hall⟩ := hheeds.pending
  obtain ⟨x, hx, rfl⟩ := List.mem_map.1 ht
  replace hx : x ∈ ((P.react e s.memory).run s.stage).2.pending := hx
  rw [hmore] at hx
  exact ⟨x.1, x.2, rfl, hall x hx⟩

/-- A plugin that observes only takes in what it is told. -/
theorem announce_attend (hP : P.Observes) (s : Solver P) (e : Event) :
    ((s.announce e).1.memory, (s.announce e).1.core.journal) =
        (s.announced (.announce e)).foldl P.attend (s.memory, s.core.journal) ∧
      (s.announce e).1.core.ignored = s.core.ignored := by
  have hrun := (hP e s.memory).run_eq s.stage
  have hmemory : (s.announce e).1.memory = ((P.react e s.memory).run s.stage).1 := rfl
  have hjournal : (s.announce e).1.core.journal =
      ((P.react e s.memory).run s.stage).2.journal := rfl
  have hignored : (s.announce e).1.core.ignored =
      ((P.react e s.memory).run s.stage).2.ignored := rfl
  rw [hmemory, hjournal, hignored, hrun]
  exact ⟨rfl, rfl⟩

end Solver

end PointsTo
