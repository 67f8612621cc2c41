import PointsTo.Proofs.Solver.Schedule

/-!
# Queued statements are run at once

What a local plugin queues is run right after the announcement that it reacts to, and before
anything else is queued. So the statements that are run for plugins are those that they queue, in
the same order.

* `Solver.injected`: the statements that are run for plugins in the course of a run;
* `Solver.injected_eq`: these are the statements that were queued.
-/

namespace PointsTo

/-- The statement that a task runs for a plugin. -/
def Task.injected? : Task → Option (CtxMethod × StmtId)
  | .exec m id true => some (m, id)
  | _ => none

/-- Tasks that run statements for plugins come before announcements in reaction to which plugins
queue statements. -/
def Prompt (tasks : List Task) : Prop :=
  tasks.Pairwise fun t t' => (∃ x, t = .announce (.newCtxMethod x)) → t'.injected? = none

theorem Core.Move.injected?_eq_none {c c' : Core} {t : Task} {ts : List Task}
    (h : Core.Move c t c' ts) : ∀ t' ∈ ts, t'.injected? = none := by
  intro t' ht'
  cases h with
  | confined _ _ _ ensues =>
    have he := ensues t' ht'
    cases t' with
    | exec => exact he.elim
    | _ => rfl
  | begin =>
    simp only [List.mem_cons, List.mem_flatMap, List.not_mem_nil, or_false] at ht'
    rcases ht' with rfl | ⟨m, -, rfl | rfl⟩ <;> rfl
  | ignored | skip => cases ht'
  | reached => rcases mem_arrival ht' with rfl | ⟨s, -, rfl⟩ | ⟨s, -, rfl⟩ | rfl <;> rfl
  | record | drain | call =>
    simp only [List.mem_cons, List.not_mem_nil, or_false] at ht'
    rcases ht' with rfl | rfl <;> rfl
  | @arrive p =>
    cases p with
    | field => cases ht'
    | var ctx v =>
      simp only [Core.onward, List.mem_cons, List.not_mem_nil, or_false] at ht'
      rcases ht' with rfl | rfl <;> rfl

namespace Solver

variable {P : Plugin} {I : P.Memory → Prop} {s s' : Solver P} {t : Task} {ts rest tasks : List Task}
  {fuel : Nat}

/-- The statements that are run for plugins while an agenda is carried out, in order, each with the
method and the context that it is run in. -/
def injected : Nat → List Task → Solver P → List (CtxMethod × StmtId)
  | fuel + 1, t :: rest, s =>
    match s.perform t with
    | (s', .ok ts) => t.injected?.toList ++ injected fuel (ts ++ rest) s'
    | (_, .error _) => []
  | _, _, _ => []

theorem queued_announced (s : Solver P) (t : Task) :
    (s.announced t).flatMap Announcement.queued = s.queue t := by
  cases t with
  | announce x => exact List.flatMap_singleton _ _
  | _ => rfl

/-- What is queued is put on the agenda. -/
theorem Turn.filterMap_injected? (h : Turn s s' t ts) :
    ts.filterMap Task.injected? = s.queue t := by
  cases h with
  | @announce x =>
    show ((s.queue (.announce x)).map fun z => Task.exec z.1 z.2 true).filterMap _ = _
    simp [List.filterMap_map, Function.comp_def, Task.injected?]
  | move ht _ move =>
    rw [← queued_announced, s.announced_eq_nil ht]
    exact List.filterMap_eq_nil_iff.2 move.injected?_eq_none

/-- When statements are queued, none that were queued before are left. -/
theorem Turn.queue_or (hturn : Turn s s' t ts) (hprompt : Prompt (t :: rest)) :
    s.queue t = [] ∨ rest.filterMap Task.injected? = [] := by
  rw [← hturn.filterMap_injected?]
  cases hturn with
  | @announce x _ _ tasks =>
    cases hq : (s.announce x).2 with
    | nil => exact .inl rfl
    | cons t' ts =>
      obtain ⟨m, id, -, rfl, -⟩ := tasks t' (hq ▸ List.mem_cons_self)
      refine .inr (List.filterMap_eq_nil_iff.2 fun r hr => ?_)
      exact (List.pairwise_cons.1 hprompt).1 r hr ⟨m, rfl⟩
  | move _ _ move => exact .inl (List.filterMap_eq_nil_iff.2 move.injected?_eq_none)

theorem Regular.prompt (h : s.Regular I (t :: rest)) (hprompt : Prompt (t :: rest))
    (hturn : Turn s s' t ts) : Prompt (ts ++ rest) := by
  have hnew : ∀ t' ∈ ts, (∃ x, t' = .announce (.newCtxMethod x)) →
      ∀ r ∈ ts ++ rest, r.injected? = none := by
    rintro t' ht' ⟨x, rfl⟩ r hr
    cases hturn with
    | announce _ _ tasks =>
      obtain ⟨m, id, heq, -⟩ := tasks _ ht'
      cases heq
    | move _ _ move =>
      rcases List.mem_append.1 hr with hr | hr
      · exact move.injected?_eq_none r hr
      · -- methods become reachable when nothing of the lowest level is left to be done
        have hnews : .newCtxMethod x ∈ pendingNews ts :=
          List.mem_filter.2 ⟨List.mem_filterMap.2 ⟨_, ht', rfl⟩, rfl⟩
        have hlevel := (move.news h.wellFormed h.timely h.scheduled).2.resolve_left
          (List.ne_nil_of_mem hnews)
        have hle := (h.scheduled.before hr).le
        cases r with
        | exec => exact absurd (Nat.lt_of_lt_of_le hlevel hle) (Nat.lt_irrefl 0)
        | _ => rfl
  refine List.pairwise_append.2 ⟨?_, (List.pairwise_cons.1 hprompt).2, fun t' ht' r hr hx => ?_⟩
  · apply List.pairwise_of_forall_mem_list
    exact fun t' ht' r hr hx => hnew t' ht' hx r (List.mem_append_left _ hr)
  · exact hnew t' ht' hx r (List.mem_append_right _ hr)

/-- The statements that are run for local plugins are those that were to be run, and those that are
queued. -/
theorem injected_eq (hP : P.Local I) (h : s.Regular I tasks) (hprompt : Prompt tasks)
    (hs : s.settle fuel tasks = (s', .done ())) :
    s.injected fuel tasks =
      tasks.filterMap Task.injected? ++
        (s.announcements fuel tasks).flatMap Announcement.queued := by
  induction fuel generalizing s tasks with
  | zero =>
    cases tasks with
    | nil => rfl
    | cons t rest => cases hs
  | succ fuel ih =>
    cases tasks with
    | nil => rfl
    | cons t rest =>
      obtain ⟨n, s₁, ts, hn, hp, hrest⟩ := settle_cons hs
      cases hn
      obtain ⟨hturn, -⟩ := h.turn hP hp
      have hlater := ih (h.perform hP hp) (h.prompt hprompt hturn) hrest
      have hcons : (t :: rest).filterMap Task.injected? =
          t.injected?.toList ++ rest.filterMap Task.injected? := by
        cases ht : t.injected? <;> simp [ht]
      simp only [injected, announcements, hp]
      rw [hlater, hcons, List.filterMap_append, hturn.filterMap_injected?, List.flatMap_append,
        queued_announced]
      -- either nothing is queued, or nothing was left to be run
      rcases hturn.queue_or hprompt with hnone | hnone <;> simp [hnone]

end Solver

end PointsTo
