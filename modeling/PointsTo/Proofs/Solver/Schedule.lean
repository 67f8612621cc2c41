import PointsTo.Proofs.Solver.Timely

/-!
# What is new, and when it is announced

Tasks have levels, and what is to be done is sorted by level: a task is done when everything of a
lower level that it has called for is done. Therefore no news is left to be announced when a method
becomes reachable, a call edge is recorded or objects arrive, and announcements are made in the
order in which things happen.

* `Core.Scheduled`: tasks are sorted by level (`Task.Before`);
* `Solver.Regular`: what holds in every moment of a run with local plugins;
* `Core.News`: what happened between two states, as a list of events;
* `Solver.Regular.news`: each task brings news, and appends it to what was or will be announced
  (`tale`).
-/

namespace PointsTo

namespace Task

/-- The level of a task. Tasks of lower levels are done first. -/
def level : Task → Nat
  | .announce .finish | .begin | .drain | .statistics => 4
  | .next => 3
  | .record _ _ => 2
  | .reach _ | .enter _ => 1
  | .announce _ | .exec _ _ _ | .react _ _ _ | .dispatch _ _ _ | .wake _ _ _ | .bind _ => 0

/-- `t` may be done before `t'`. No two call edges are recorded one after the other. -/
def Before (t t' : Task) : Prop := t.level < t'.level ∨ t.level = t'.level ∧ t.level ≠ 2

variable {t t₁ t₂ t₃ : Task}

theorem Before.trans (h₁ : t₁.Before t₂) (h₂ : t₂.Before t₃) : t₁.Before t₃ := by
  unfold Before at *
  omega

theorem Before.le (h : t₁.Before t₂) : t₁.level ≤ t₂.level := by
  unfold Before at h
  omega

/-- What has the lowest level may be done before anything. -/
theorem before_of_level (h : t₁.level = 0) (t₂ : Task) : t₁.Before t₂ := by
  unfold Before
  omega

theorem Ensues.level {N : CtxMethod → Prop} (h : t.Ensues N) : t.level = 0 := by
  cases t with
  | react | dispatch => rfl
  | announce x =>
    cases x with
    | unresolvedCall => rfl
    | _ => exact h.elim
  | _ => exact h.elim

end Task

/-- Tasks of one level may be done in any order, unless they record call edges. -/
theorem pairwise_of_level {ts : List Task} {n : Nat} (hn : n ≠ 2) (h : ∀ t ∈ ts, t.level = n) :
    ts.Pairwise Task.Before := by
  induction ts with
  | nil => exact .nil
  | cons t ts ih =>
    apply List.pairwise_cons.2 ⟨fun t' ht' => .inr ?_, ih fun t' ht' => h t' (.tail t ht')⟩
    have ht := h t List.mem_cons_self
    have ht' := h t' (List.mem_cons_of_mem t ht')
    omega

theorem level_arrival {m : CtxMethod} {body : List StmtId} {seen : Bool} :
    ∀ t ∈ Core.arrival m body seen, t.level = 0 := by
  intro t ht
  rcases Core.mem_arrival ht with rfl | ⟨s, -, rfl⟩ | ⟨s, -, rfl⟩ | rfl <;> rfl

theorem level_onward {delta : PointsToSet} {p : Pointer} :
    ∀ t ∈ Core.onward delta p, t.level = 0 := by
  intro t ht
  cases p with
  | field => cases ht
  | var ctx v =>
    simp only [Core.onward, List.mem_cons, List.not_mem_nil, or_false] at ht
    rcases ht with rfl | rfl <;> rfl

namespace Core

/-- Tasks are sorted by level. A call edge that is about to be recorded is new; before the run has
started, and when the start is announced, no method is reachable. -/
structure Scheduled (c : Core) (tasks : List Task) : Prop where
  ranked : tasks.Pairwise Task.Before
  unrecorded : ∀ m e, .record m e ∈ tasks → c.analysis.calls.hasEdge e.site e.callee = false
  opening : .announce .start ∈ tasks → ∀ m, ¬ c.Reaches m
  awake : c.started = true ∨ (∀ m, ¬ c.Reaches m) ∧ ∃ rest, tasks = .begin :: rest

variable {c c₁ c' : Core} {t : Task} {ts rest : List Task} {m : CtxMethod} {e : CtxEdge}

theorem hasEdge_congr (h : c'.analysis.calls.pairs = c.analysis.calls.pairs) (s : CtxSite)
    (m : CtxMethod) : c'.analysis.calls.hasEdge s m = c.analysis.calls.hasEdge s m := by
  rw [CallGraph.hasEdge, CallGraph.hasEdge, h]

theorem Confined.hasEdge_eq {N : CtxMethod → Prop} (h : Confined N c c') (s : CtxSite)
    (m : CtxMethod) : c'.analysis.calls.hasEdge s m = c.analysis.calls.hasEdge s m :=
  hasEdge_congr (congrArg Standing.pairs h.standing_eq) s m

namespace Scheduled

theorem before (h : c.Scheduled (t :: rest)) {r : Task} (hr : r ∈ rest) : t.Before r :=
  (List.pairwise_cons.1 h.ranked).1 r hr

/-- Everything but the first task of all is done after the start. -/
theorem started (h : c.Scheduled (t :: rest)) (ht : t = .begin → c.started = true) :
    c.started = true := by
  rcases h.awake with hs | ⟨-, rest', heq⟩
  · exact hs
  · cases heq
    exact ht rfl

/-- The start is announced before a task of a higher level is done. -/
theorem start_not_mem (h : c.Scheduled (t :: rest)) (ht : 0 < t.level) :
    .announce .start ∉ rest := by
  intro hr
  have hle := (h.before hr).le
  have hlevel : (Task.announce .start).level = 0 := rfl
  omega

/-- No method is about to become reachable when an item is taken up. -/
theorem reach_not_mem (h : c.Scheduled (.next :: rest)) (m : CtxMethod) : .reach m ∉ rest := by
  intro hr
  have hle := (h.before hr).le
  simp [Task.level] at hle

/-- What has to be shown of a task that keeps the order. -/
theorem step (h : c.Scheduled (t :: rest)) (hranked : ts.Pairwise Task.Before)
    (hbefore : ∀ t' ∈ ts, t'.Before t)
    (hold : ∀ m e, .record m e ∈ rest → c'.analysis.calls.hasEdge e.site e.callee = false)
    (hnew : ∀ m e, .record m e ∈ ts → c'.analysis.calls.hasEdge e.site e.callee = false)
    (hopening : .announce .start ∈ ts ++ rest → ∀ m, ¬ c'.Reaches m)
    (hstarted : c'.started = true) : c'.Scheduled (ts ++ rest) where
  ranked := by
    apply List.pairwise_append.2 ⟨hranked, (List.pairwise_cons.1 h.ranked).2, ?_⟩
    intro t' ht' r hr
    exact (hbefore t' ht').trans (h.before hr)
  unrecorded m e he := (List.mem_append.1 he).elim (hnew m e) (hold m e)
  opening := hopening
  awake := .inl hstarted

theorem unrecorded_tail (h : c.Scheduled (t :: rest))
    (hsame : ∀ s m, c'.analysis.calls.hasEdge s m = c.analysis.calls.hasEdge s m) :
    ∀ m e, .record m e ∈ rest → c'.analysis.calls.hasEdge e.site e.callee = false := by
  intro m e he
  rw [hsame]
  exact h.unrecorded m e (List.mem_cons_of_mem t he)

/-- A task that calls for nothing. -/
theorem done (h : c.Scheduled (t :: rest))
    (hsame : ∀ s m, c'.analysis.calls.hasEdge s m = c.analysis.calls.hasEdge s m)
    (ht : 0 < t.level) (hstarted : c'.started = true) : c'.Scheduled ([] ++ rest) :=
  h.step .nil (List.forall_mem_nil _) (h.unrecorded_tail hsame)
    (fun _ _ he => absurd he List.not_mem_nil) (fun hs => absurd hs (h.start_not_mem ht)) hstarted

/-- A task of a higher level that calls for tasks of the lowest level. -/
theorem lowest (h : c.Scheduled (t :: rest)) (ht : 0 < t.level) (hts : ∀ t' ∈ ts, t'.level = 0)
    (hstart : .announce .start ∉ ts)
    (hold : ∀ m e, .record m e ∈ rest → c'.analysis.calls.hasEdge e.site e.callee = false)
    (hstarted : c'.started = true) : c'.Scheduled (ts ++ rest) := by
  apply h.step (pairwise_of_level (by decide) hts)
    (fun t' ht' => Task.before_of_level (hts t' ht') t) hold _ _ hstarted
  · intro m e he
    exact absurd (hts _ he) (by simp [Task.level])
  · intro hs
    rcases List.mem_append.1 hs with hs | hs
    · exact absurd hs hstart
    · exact absurd hs (h.start_not_mem ht)

theorem begin (h : c.Scheduled (.begin :: rest)) (hs : c.started = false) :
    { c with started := true }.Scheduled ((Task.announce .start :: c.entries.flatMap fun m =>
      [Task.reach ⟨[], m⟩, .enter ⟨[], m⟩]) ++ rest) := by
  obtain ⟨hno, -⟩ := h.awake.resolve_left (by simp [hs])
  have hentries : ∀ t ∈ c.entries.flatMap fun m => [Task.reach ⟨[], m⟩, .enter ⟨[], m⟩],
      t.level = 1 := by
    intro t ht
    simp only [List.mem_flatMap, List.mem_cons, List.not_mem_nil, or_false] at ht
    obtain ⟨m, -, rfl | rfl⟩ := ht <;> rfl
  refine h.step ?_ ?_ (h.unrecorded_tail fun _ _ => rfl) ?_ (fun _ => hno) rfl
  · apply List.pairwise_cons.2 ⟨fun t _ => Task.before_of_level rfl t, ?_⟩
    exact pairwise_of_level (by decide) hentries
  · intro t ht
    rcases List.mem_cons.1 ht with rfl | ht
    · exact Task.before_of_level rfl _
    · left
      rw [hentries t ht]
      decide
  · intro m e he
    rcases List.mem_cons.1 he with he | he
    · cases he
    · cases hentries _ he

theorem move (h : c.Scheduled (t :: rest)) (hmove : Move c t c' ts) :
    c'.Scheduled (ts ++ rest) := by
  cases hmove with
  | confined ht hs state ensues =>
    have hlevel : ∀ t' ∈ ts, t'.level = 0 := fun t' ht' => (ensues t' ht').level
    have hstarted : c'.started = true := state.started_eq.trans (h.started hs)
    apply h.step (pairwise_of_level (by decide) hlevel)
      (fun t' ht' => Task.before_of_level (hlevel t' ht') t) (h.unrecorded_tail state.hasEdge_eq)
      (fun m e he => (ensues _ he).elim) _ hstarted
    intro hstart m hm
    rcases List.mem_append.1 hstart with hstart | hstart
    · exact ensues _ hstart
    · exact h.opening (List.mem_cons_of_mem t hstart) m ((state.reaches m).1 hm)
  | begin hs => exact h.begin hs
  | ignored hm hi state =>
    exact h.done state.hasEdge_eq Nat.one_pos (state.started_eq.trans (h.started (by rintro ⟨⟩)))
  | reached hm hi state built =>
    refine h.lowest Nat.one_pos level_arrival ?_ (h.unrecorded_tail state.hasEdge_eq)
      (state.started_eq.trans (h.started (by rintro ⟨⟩)))
    intro hstart
    rcases mem_arrival hstart with heq | ⟨s, -, heq⟩ | ⟨s, -, heq⟩ | heq <;> cases heq
  | record state =>
    refine h.lowest Nat.two_pos (by simp [Task.level]) (by simp) ?_
      (state.started_eq.trans (h.started (by rintro ⟨⟩)))
    -- no other call edge is about to be recorded
    intro m' e' he'
    rcases h.before he' with hlt | ⟨-, hne⟩
    · exact absurd hlt (by simp [Task.level])
    · exact absurd rfl hne
  | drain hitems =>
    have hstarted := h.started (by rintro ⟨⟩)
    refine h.step ?_ ?_ (h.unrecorded_tail fun _ _ => rfl) (by simp) ?_ hstarted
    · simp [Task.Before, Task.level]
    · simp [Task.Before, Task.level]
    · intro hs
      rcases List.mem_append.1 hs with hs | hs
      · simp at hs
      · exact absurd hs (h.start_not_mem (by decide))
  | skip hitems hi => exact h.done (fun _ _ => rfl) (by decide) (h.started (by rintro ⟨⟩))
  | arrive hitems hnew state =>
    rename_i p os items
    have hsame : ∀ s m, c'.analysis.calls.hasEdge s m = c.analysis.calls.hasEdge s m := by
      intro s m
      rw [state.hasEdge_eq, Core.arrive, foldl_push_objects]
      rfl
    refine h.lowest (by decide) level_onward ?_ (h.unrecorded_tail hsame) ?_
    · intro hstart
      cases p with
      | field => cases hstart
      | var ctx v => simp [onward] at hstart
    · rw [state.started_eq, Core.arrive, foldl_push_objects]
      exact h.started (by rintro ⟨⟩)
  | call hitems hnew =>
    refine h.step ?_ ?_ (h.unrecorded_tail fun _ _ => rfl) ?_ ?_ (h.started (by rintro ⟨⟩))
    · simp [Task.Before, Task.level]
    · simp [Task.Before, Task.level]
    · intro m e he
      simp only [List.mem_cons, List.not_mem_nil, or_false] at he
      rcases he with he | he <;> cases he
      exact hnew
    · intro hs
      rcases List.mem_append.1 hs with hs | hs
      · simp at hs
      · exact absurd hs (h.start_not_mem (by decide))

/-- Announcements keep the order, too. -/
theorem heed {x : Event} (h : c.Scheduled (.announce x :: rest)) (hx : Heeds x c c')
    (hts : ∀ t ∈ ts, ∃ m id, t = .exec m id true ∧ x = .newCtxMethod m ∧ id.method = m.method) :
    c'.Scheduled (ts ++ rest) := by
  have hexec : ∀ t ∈ ts, ∃ m id, t = .exec m id true := by
    intro t ht
    obtain ⟨m, id, heq, -⟩ := hts t ht
    exact ⟨m, id, heq⟩
  have hlevel : ∀ t ∈ ts, t.level = 0 := by
    intro t ht
    obtain ⟨m, id, rfl⟩ := hexec t ht
    rfl
  have hsame := hasEdge_congr (congrArg Standing.pairs hx.standing_eq)
  apply h.step (pairwise_of_level (by decide) hlevel)
    (fun t ht => Task.before_of_level (hlevel t ht) _) (h.unrecorded_tail hsame) _ _
    (hx.started_eq.trans (h.started nofun))
  · intro m e he
    obtain ⟨m', id, heq⟩ := hexec _ he
    cases heq
  · intro hs m hm
    rcases List.mem_append.1 hs with hs | hs
    · obtain ⟨m', id, heq⟩ := hexec _ hs
      cases heq
    · exact h.opening (List.mem_cons_of_mem _ hs) m ((hx.reaches m).1 hm)

end Scheduled

/-! ### What is new -/

/-- The events that tell of a method that became reachable. -/
def debut (m : CtxMethod) (body : List StmtId) (seen : Bool) : List Event :=
  (if seen then [] else .newMethod m.method :: body.map fun s => .newStmt s m.method) ++
    [.newCtxMethod m]

/-- The variables refer to the same objects in both states. -/
def SamePoints (c c' : Core) : Prop :=
  ∀ ctx v o, c'.Holds (.points (.var ctx v) o) ↔ c.Holds (.points (.var ctx v) o)

/-- What happened between the states `c` and `c'`, as a list of events. Methods that are ignored
become reachable in silence. -/
inductive News (c c' : Core) : List Event → Prop
  | quiet (standing : c'.standing = c.standing) (points : c.SamePoints c') : News c c' []
  | opening (hno : ∀ m, ¬ c.Reaches m) (points : c.SamePoints c')
      (standing : c'.standing = { c.standing with ignored := c'.ignored }) : News c c' []
  | ignored {m : CtxMethod} (hm : ¬ c.Reaches m) (hi : m.method ∈ c.ignored)
      (points : c.SamePoints c') (standing : c'.standing =
        { c.standing with methods := c.analysis.calls.methods.insert m }) : News c c' []
  | reached {m : CtxMethod} (hm : ¬ c.Reaches m) (hi : m.method ∉ c.ignored)
      (built : c'.elements.isBuilt m.method = true) (points : c.SamePoints c')
      (standing : c'.standing = { c.standing with
        methods := c.analysis.calls.methods.insert m, seen := c.seen.insert m.method }) :
      News c c' (debut m (c'.elements.code m.method).body (m.method ∈ c.seen))
  | called {m : CtxMethod} {e : CtxEdge} (hcaller : c.Reaches m) (hcallee : c.Reaches e.callee)
      (points : c.SamePoints c') (standing : c'.standing = { c.standing with
        calls := c.analysis.calls.calls ++ [(m, e)], pairs := c'.analysis.calls.pairs }) :
      News c c' [.newCallEdge e]
  | arrived {ctx : Context} {v : VarId} {delta : PointsToSet} (hnew : ∃ o, o ∈ delta)
      (hdisjoint : ∀ o ∈ delta, ¬ c.Holds (.points (.var ctx v) o))
      (standing : c'.standing = c.standing)
      (points : ∀ ctx' v' o, c'.Holds (.points (.var ctx' v') o) ↔
        c.Holds (.points (.var ctx' v') o) ∨ ctx' = ctx ∧ v' = v ∧ o ∈ delta) :
      News c c' [.newPointsTo ctx v delta]

end Core

/-- Whether an event tells of methods, statements, call edges or objects. -/
def Event.isNews : Event → Bool
  | .start | .finish | .unresolvedCall _ => false
  | .newMethod _ | .newStmt _ _ | .newCtxMethod _ | .newPointsTo _ _ _ | .newCallEdge _ => true

/-- What a task announces. -/
def Task.event? : Task → Option Event
  | .announce x => some x
  | _ => none

/-- The news that tasks announce, in order. -/
def pendingNews (tasks : List Task) : List Event :=
  (tasks.filterMap Task.event?).filter Event.isNews

/-- The news that was announced, and that is to be announced. -/
def tale (log : List Announcement) (tasks : List Task) : List Event :=
  (log.map Announcement.event).filter Event.isNews ++ pendingNews tasks

section

variable {log : List Announcement} {t : Task} {ts rest : List Task}

theorem pendingNews_append (ts rest : List Task) :
    pendingNews (ts ++ rest) = pendingNews ts ++ pendingNews rest := by
  simp [pendingNews]

theorem pendingNews_eq_nil (h : ∀ x, .announce x ∈ ts → x.isNews = false) :
    pendingNews ts = [] := by
  simp only [pendingNews, List.filter_eq_nil_iff, List.mem_filterMap, Bool.not_eq_true]
  rintro x ⟨t, ht, hx⟩
  cases t with
  | announce y =>
    cases hx
    exact h x ht
  | _ => cases hx

theorem pendingNews_arrival (m : CtxMethod) (body : List StmtId) (seen : Bool) :
    pendingNews (Core.arrival m body seen) = Core.debut m body seen := by
  have hrun : pendingNews (body.map fun s => .exec m s false) = [] := by
    apply pendingNews_eq_nil
    simp
  have hintro : pendingNews (Core.introduction m.method body) =
      .newMethod m.method :: body.map fun s => .newStmt s m.method := by
    simp [pendingNews, Core.introduction, Task.event?, Event.isNews, List.filterMap_map,
      Function.comp_def]
  rw [Core.arrival, pendingNews_append, pendingNews_append, hrun, Core.debut, List.append_nil]
  cases seen with
  | true => rfl
  | false => exact congrArg (· ++ _) hintro

/-- News is announced right after a task of a higher level, with nothing else left to announce. -/
theorem Core.Scheduled.pendingNews_tail {c : Core} (h : c.Scheduled (t :: rest))
    (ht : 0 < t.level) : pendingNews rest = [] := by
  apply pendingNews_eq_nil
  intro x hx
  have hle := (h.before hx).le
  cases x with
  | start | finish | unresolvedCall => rfl
  | newMethod | newStmt | newCtxMethod | newPointsTo | newCallEdge =>
    have hlevel : t.level ≤ 0 := hle
    omega

end

namespace Core

variable {c c' : Core} {t : Task} {ts rest : List Task}

theorem Confined.frame {N : CtxMethod → Prop} (h : Confined N c c') :
    c.elements.Evolves c'.elements ∧ c'.journal = c.journal ∧ c'.ignored = c.ignored :=
  ⟨h.elements, h.journal_eq, congrArg Standing.ignored h.standing_eq⟩

theorem Confined.samePoints {N : CtxMethod → Prop} (h : Confined N c c') : c.SamePoints c' := by
  intro ctx v o
  simp only [Holds, h.pointsTo_eq]

theorem Move.news_arrive (hwf : c.WellFormed) {p : Pointer} {os : PointsToSet}
    {items : List WorkItem} (hitems : c.worklist.items = .objects p os :: items)
    (hnew : ∃ o ∈ os, ¬ c.Holds (.points p o))
    (state : Confined c.Reaches ((c.remain items).arrive p os (os.diff (c.pointsTo p))) c') :
    News c c' (pendingNews (onward (os.diff (c.pointsTo p)) p)) := by
  obtain ⟨o, ho, hold⟩ := hnew
  have hp : p ∈ c.analysis.heap.pointers.keys :=
    (hwf.admits (.points p o) (.inr ⟨_, hitems ▸ List.mem_cons_self, .points ho⟩)).1
  have hholds : ∀ p' o', c'.Holds (.points p' o') ↔
      c.Holds (.points p' o') ∨ p' = p ∧ o' ∈ os.diff (c.pointsTo p) := by
    intro p' o'
    have hstate : c'.Holds (.points p' o') ↔
        ((c.remain items).arrive p os (os.diff (c.pointsTo p))).Holds (.points p' o') := by
      simp only [Holds, state.pointsTo_eq]
    rw [hstate, holds_arrive (c := c.remain items) hp, holds_remain]
    constructor
    · rintro (h | ⟨o₁, ho₁, heq⟩)
      · exact .inl h
      · cases heq
        by_cases h : c.Holds (.points p o')
        · exact .inl h
        · exact .inr ⟨rfl, OrderedSet.mem_diff.2 ⟨ho₁, h⟩⟩
    · rintro (h | ⟨rfl, ho'⟩)
      · exact .inl h
      · exact .inr ⟨o', (OrderedSet.mem_diff.1 ho').1, rfl⟩
  have hstanding : c'.standing = c.standing := by
    rw [state.standing_eq, Core.arrive, foldl_push_objects]
    rfl
  cases p with
  | field o' x =>
    refine .quiet hstanding fun ctx v o => (hholds _ o).trans ?_
    simp
  | var ctx v =>
    refine .arrived ⟨o, OrderedSet.mem_diff.2 ⟨ho, hold⟩⟩ ?_ hstanding fun ctx' v' o' => ?_
    · exact fun o' ho' => (OrderedSet.mem_diff.1 ho').2
    · rw [hholds]
      simp [and_assoc]

/-- A task brings the news that it wants to be announced; tasks of the lowest level bring none. -/
theorem Move.news (hwf : c.WellFormed) (h : c.Timely (t :: rest)) (hs : c.Scheduled (t :: rest))
    (hmove : Move c t c' ts) :
    News c c' (pendingNews ts) ∧ (pendingNews ts = [] ∨ 0 < t.level) := by
  cases hmove with
  | confined ht hs state ensues =>
    have hnone : pendingNews ts = [] := by
      apply pendingNews_eq_nil
      intro x hx
      have hx := ensues _ hx
      cases x with
      | unresolvedCall => rfl
      | _ => exact hx.elim
    rw [hnone]
    exact ⟨.quiet state.standing_eq state.samePoints, .inl rfl⟩
  | begin hs =>
    have hnone : pendingNews (.announce .start ::
        c.entries.flatMap fun m => [.reach ⟨[], m⟩, .enter ⟨[], m⟩]) = [] := by
      apply pendingNews_eq_nil
      intro x hx
      simp only [List.mem_cons, List.mem_flatMap, List.not_mem_nil, or_false] at hx
      rcases hx with hx | ⟨m, -, hx | hx⟩ <;> cases hx
      rfl
    rw [hnone]
    exact ⟨.quiet rfl fun _ _ _ => Iff.rfl, .inl rfl⟩
  | ignored hm hi state =>
    have hstanding := state.standing_eq.trans (standing_addMethod c _ c.seen)
    exact ⟨.ignored hm hi state.samePoints hstanding, .inl rfl⟩
  | reached hm hi state built =>
    rw [pendingNews_arrival]
    have hstanding := state.standing_eq.trans (standing_addMethod c _ _)
    exact ⟨.reached hm hi built state.samePoints hstanding, .inr Nat.one_pos⟩
  | record state =>
    rename_i m e
    have hfresh : c.analysis.calls.hasEdge e.site e.callee = false :=
      hs.unrecorded m e List.mem_cons_self
    obtain ⟨hcaller, hcallee⟩ := h.inTime.1
    refine ⟨.called hcaller hcallee state.samePoints ?_, .inr Nat.two_pos⟩
    have hpairs : c'.analysis.calls.pairs = _ := congrArg Standing.pairs state.standing_eq
    rw [state.standing_eq, hpairs]
    -- both methods are in the graph, so that only the call is new
    have hmethods : (c.analysis.calls.addEdge m e).methods = c.analysis.calls.methods := by
      rw [CallGraph.methods_addEdge hfresh, OrderedSet.insert_of_mem hcaller,
        OrderedSet.insert_of_mem hcallee]
    have hcalls : (c.analysis.calls.addEdge m e).calls = c.analysis.calls.calls ++ [(m, e)] := by
      simp [CallGraph.addEdge, hfresh]
    simp [standing, modifyCalls, hmethods, hcalls]
  | drain | skip | call => exact ⟨.quiet rfl fun _ _ _ => Iff.rfl, .inl rfl⟩
  | arrive hitems hnew state => exact ⟨news_arrive hwf hitems hnew state, .inr (by decide)⟩

/-- What tasks leave alone: the tables only grow, and only plugins write to the journal or have
methods ignored. -/
theorem Move.frame (hmove : Move c t c' ts) :
    c.elements.Evolves c'.elements ∧ c'.journal = c.journal ∧ c'.ignored = c.ignored := by
  cases hmove with
  | confined _ _ state => exact state.frame
  | begin | drain | skip | call => exact ⟨.refl, rfl, rfl⟩
  | ignored _ _ state => exact state.frame
  | reached _ _ state => exact state.frame
  | record state => exact state.frame
  | arrive _ _ state =>
    have hframe := state.frame
    rw [Core.arrive, foldl_push_objects] at hframe
    exact hframe

theorem Move.evolves (hmove : Move c t c' ts) : c.elements.Evolves c'.elements := hmove.frame.1

theorem Move.journal_eq (hmove : Move c t c' ts) : c'.journal = c.journal := hmove.frame.2.1

theorem Move.ignored_eq (hmove : Move c t c' ts) : c'.ignored = c.ignored := hmove.frame.2.2

end Core

/-! ### Runs -/

namespace Solver

variable {P : Plugin} {I : P.Memory → Prop} {s s' : Solver P} {t : Task} {ts rest : List Task}

/-- What holds in every moment of a run with local plugins, when `tasks` are still to be done. -/
structure Regular (I : P.Memory → Prop) (s : Solver P) (tasks : List Task) : Prop where
  wellFormed : s.core.WellFormed
  sane : ∀ t ∈ tasks, t.Sane s.core
  memory : I s.memory
  timely : s.core.Timely tasks
  scheduled : s.core.Scheduled tasks

/-- An announcement changes what local plugins may change; other tasks are moves of the solver. -/
inductive Turn (s s' : Solver P) : Task → List Task → Prop
  | announce {x : Event} (hs : s' = (s.announce x).1) (heeds : Core.Heeds x s.core s'.core)
      (tasks : ∀ t ∈ (s.announce x).2, ∃ m id, t = .exec m id true ∧ x = .newCtxMethod m ∧
        id.method = m.method) : Turn s s' (.announce x) (s.announce x).2
  | move {t : Task} {ts : List Task} (ht : ∀ x, t ≠ .announce x) (memory_eq : s'.memory = s.memory)
      (move : Core.Move s.core t s'.core ts) : Turn s s' t ts

/-- In every turn the tables change as local plugins change them. -/
theorem Turn.evolves (h : Turn s s' t ts) : s.core.elements.Evolves s'.core.elements := by
  cases h with
  | announce _ heeds => exact heeds.elements
  | move _ _ move => exact move.evolves

namespace Regular

theorem turn (h : s.Regular I (t :: rest)) (hP : P.Local I) (hp : s.perform t = (s', .ok ts)) :
    Turn s s' t ts ∧ I s'.memory := by
  rcases s.perform_cases t with ⟨x, rfl, heq⟩ | ⟨ht, heq⟩
  · cases heq.symm.trans hp
    have hfits := (h.timely.due x List.mem_cons_self).1
    obtain ⟨hI, hheeds, htasks⟩ :=
      announce_heeds hP h.memory h.timely.tables h.wellFormed.sound hfits
    exact ⟨.announce rfl hheeds htasks, hI⟩
  · obtain ⟨rfl, hok⟩ := Prod.mk.inj (heq.symm.trans hp)
    exact ⟨.move ht rfl (Core.perform_move h.wellFormed h.timely (Prod.ext rfl hok)), h.memory⟩

theorem perform (h : s.Regular I (t :: rest)) (hP : P.Local I) (hp : s.perform t = (s', .ok ts)) :
    s'.Regular I (ts ++ rest) := by
  obtain ⟨hturn, hI⟩ := h.turn hP hp
  obtain ⟨hwf, hsane⟩ := perform_sane h.wellFormed h.sane
  rw [hp] at hwf hsane
  cases hturn with
  | announce hs heeds tasks =>
    exact ⟨hwf, hsane _ rfl, hI, h.timely.heed heeds tasks, h.scheduled.heed heeds tasks⟩
  | move ht memory_eq move =>
    have hreach : t = .next → ∀ m, .reach m ∉ rest := by
      rintro rfl
      exact h.scheduled.reach_not_mem
    exact ⟨hwf, hsane _ rfl, hI, h.timely.move hreach move, h.scheduled.move move⟩

/-- Each task brings news, and it is announced after all that is to be announced. -/
theorem news (h : s.Regular I (t :: rest)) (log : List Announcement) (hturn : Turn s s' t ts) :
    ∃ news, Core.News s.core s'.core news ∧
      tale (log ++ s.announced t) (ts ++ rest) = tale log (t :: rest) ++ news := by
  cases hturn with
  | @announce x hs heeds tasks =>
    have hpoints : s.core.SamePoints s'.core := by
      intro ctx v o
      simp only [Core.Holds, heeds.pointsTo_eq]
    have hnone : pendingNews (s.announce x).2 = [] := by
      apply pendingNews_eq_nil
      intro y hy
      obtain ⟨m, id, heq, -⟩ := tasks _ hy
      cases heq
    refine ⟨[], ?_, ?_⟩
    · by_cases hx : x = .start
      · subst hx
        exact .opening (h.scheduled.opening List.mem_cons_self) hpoints heeds.standing_eq
      · refine .quiet ?_ hpoints
        rw [heeds.standing_eq, heeds.ignored_eq hx]
        rfl
    · have hcons : pendingNews (.announce x :: rest) =
          [x].filter Event.isNews ++ pendingNews rest :=
        pendingNews_append [.announce x] rest
      have hmap : (s.announced (.announce x)).map Announcement.event = [x] := rfl
      rw [tale, tale, pendingNews_append, hnone, hcons, List.map_append, List.filter_append, hmap]
      simp
  | move ht memory_eq move =>
    obtain ⟨hnews, hlevel⟩ := move.news h.wellFormed h.timely h.scheduled
    refine ⟨_, hnews, ?_⟩
    have hcons : pendingNews (t :: rest) = pendingNews rest := by
      cases t with
      | announce x => exact absurd rfl (ht x)
      | _ => rfl
    rw [tale, tale, s.announced_eq_nil ht, List.append_nil, hcons, pendingNews_append]
    rcases hlevel with hnone | hlevel
    · simp [hnone]
    · simp [h.scheduled.pendingNews_tail hlevel]

/-- Tasks of the highest levels ask for nothing but the right order. -/
theorem of_level (hwf : s.core.WellFormed) (hI : I s.memory) (hplaced : s.core.Placed)
    (hqueued : Queued s.core.Reaches s.core.worklist.items) {tasks : List Task}
    (hlevel : ∀ t ∈ tasks, 3 ≤ t.level) (hranked : tasks.Pairwise Task.Before)
    (hawake : s.core.started = true ∨ (∀ m, ¬ s.core.Reaches m) ∧ ∃ rest, tasks = .begin :: rest) :
    s.Regular I tasks where
  wellFormed := hwf
  sane t ht := by
    have hl := hlevel t ht
    cases t with
    | begin | next | drain | announce | statistics => trivial
    | _ => simp [Task.level] at hl
  memory := hI
  timely := by
    refine ⟨hplaced, hqueued.mono fun m hm => .inl hm, ?_, fun t ht => ?_, fun x hx => ?_⟩
    · apply ordered_of_forall fun M M' => Task.InTime.mono
      intro t ht
      have hl := hlevel t ht
      cases t with
      | begin | next | drain | announce | statistics => trivial
      | _ => simp [Task.level] at hl
    · have hl := hlevel t ht
      cases t with
      | begin | next | drain | announce | statistics => trivial
      | _ => simp [Task.level] at hl
    · have hl := hlevel _ hx
      cases x with
      | finish => exact ⟨trivial, nofun⟩
      | _ => simp [Task.level] at hl
  scheduled := by
    refine ⟨hranked, fun m e he => ?_, fun hs => ?_, hawake⟩
    · have hl := hlevel _ he
      simp [Task.level] at hl
    · have hl := hlevel _ hs
      simp [Task.level] at hl

/-- When all is done, a run can be taken up again. -/
theorem resume (h : s.Regular I []) (ht : 3 ≤ t.level) : s.Regular I [t] := by
  have hstarted : s.core.started = true := by
    rcases h.scheduled.awake with hs | ⟨-, rest, heq⟩
    · exact hs
    · cases heq
  have hqueued : Queued s.core.Reaches s.core.worklist.items :=
    h.timely.queued.mono fun m hm => hm.resolve_right List.not_mem_nil
  refine of_level h.wellFormed h.memory h.timely.toPlaced hqueued ?_ (List.pairwise_singleton _ t)
    (.inl hstarted)
  intro t' ht'
  rw [List.mem_singleton.1 ht']
  exact ht

end Regular

/-- A solver with local plugins before its run, if its tables were worked on as local plugins do. -/
theorem regular_create (hP : P.Local I) {p : Program} {e : Elements}
    (he : ({ program := p } : Elements).Evolves e) (journal : List String) (entries : List MethodId)
    (policy : ContextPolicy) (hrest : ∀ t ∈ rest, t.level = 4) :
    (create P e journal entries policy .fifo).Regular I (.begin :: rest) := by
  have hsound := he.develops.sound (Elements.sound_empty p)
  have hlevel : ∀ t ∈ Task.begin :: rest, t.level = 4 := by
    intro t ht
    rcases List.mem_cons.1 ht with rfl | ht
    · rfl
    · exact hrest t ht
  refine .of_level (wellFormed_create P hsound journal entries policy .fifo) hP.initial ?_ trivial
    (fun t ht => by rw [hlevel t ht]; decide) (pairwise_of_level (by decide) hlevel)
    (.inr ⟨?_, rest, rfl⟩)
  · -- nothing waits, nothing flows, and nothing is on the worklist
    refine ⟨he.local (Elements.local_empty p), rfl, fun ctx v s hs => ?_, fun a b hab => ?_,
      fun m x hx => ?_⟩
    · exact absurd hs List.not_mem_nil
    · exact absurd hab Bool.false_ne_true
    · exact absurd hx List.not_mem_nil
  · exact fun m hm => OrderedSet.not_mem_empty m hm

end Solver

end PointsTo
