import PointsTo.Proofs.Solver.Announcements
import PointsTo.Proofs.Solver.Confined

/-!
# Runs with local plugins, the oldest item first

If the worklist is a queue and all plugins are local, every task is about methods that are reachable
when its turn comes, injected statements included. A method gets into the call graph only by
becoming reachable, then: callers are there before their calls are recorded.

* `Core.Timely`: everything is in its place and in time;
* `Core.Move`: what a task can do in such a state, said once (`Core.perform_move`);
* `Core.Timely.move`, `Core.Timely.heed`: tasks and announcements keep a state timely.
-/

namespace PointsTo

theorem OrderedSet.insert_of_mem {α : Type} [DecidableEq α] {s : OrderedSet α} {a : α} (h : a ∈ s) :
    s.insert a = s :=
  ext_toList (by rw [toList_insert, if_pos h])

section

variable {need : (CtxMethod → Prop) → Task → Prop} {N N' : CtxMethod → Prop} {ts rest : List Task}

theorem Task.InTime.mono (hN : ∀ m, N m → N' m) (t : Task) (h : t.InTime [] N) : t.InTime [] N' :=
  h.imp hN fun _ => trivial

variable (hneed : ∀ M M' : CtxMethod → Prop, (∀ m, M m → M' m) → ∀ t, need M t → need M' t)

include hneed

theorem ordered_of_forall (h : ∀ t ∈ ts, need N t) : Ordered need N ts := by
  induction ts generalizing N with
  | nil => trivial
  | cons t ts ih =>
    refine ⟨h t List.mem_cons_self, ih fun t' ht' => ?_⟩
    apply hneed N _ (fun m => .inl)
    exact h t' (List.mem_cons_of_mem t ht')

theorem Ordered.append_of_mono (h : Ordered need N ts) (hrest : Ordered need N rest) :
    Ordered need N (ts ++ rest) := by
  induction ts generalizing N with
  | nil => exact hrest
  | cons t ts ih => exact ⟨h.1, ih h.2 (hrest.mono hneed fun m => .inl)⟩

end

namespace Core

/-- The worklist is a queue. Waiting statements, flows and call edges are where they belong: with
variables of the same method, into methods that are reachable, and with the method of the call. -/
structure Placed (c : Core) : Prop where
  tables : c.elements.Local
  fifo : c.worklist.order = .fifo
  watchers : ∀ ctx v, ∀ s ∈ c.watchers.get (.var ctx v), s.method = v.method
  flows : ∀ a b, c.Holds (.flow a b) → b.In c.Reaches
  edges : ∀ m e, .edge m e ∈ c.worklist.items → m = ⟨e.site.ctx, e.site.site.method⟩

/-- What is to be done is about methods that are reachable by then, with the worklist after the
tasks. What is to be announced is true. -/
structure Timely (c : Core) (tasks : List Task) : Prop extends Placed c where
  queued : Queued (fun m => c.Reaches m ∨ .reach m ∈ tasks) c.worklist.items
  inTime : Ordered (Task.InTime []) c.Reaches tasks
  atHome : ∀ t ∈ tasks, t.AtHome
  due : ∀ x, .announce x ∈ tasks → x.Fits c.elements ∧ ∀ m, x = .newCtxMethod m → c.Reaches m

variable {c c₁ c' : Core} {t : Task} {ts rest : List Task} {m : CtxMethod} {e : CtxEdge}

theorem Placed.adheres (h : c.Placed) (ha : Adheres c.Reaches c c')
    (hmono : ∀ m, c.Reaches m → c'.Reaches m) : c'.Placed where
  tables := ha.elements.local h.tables
  fifo := ha.order_eq.trans h.fifo
  watchers ctx v s hs := (ha.watchers ctx v s hs).elim (h.watchers ctx v s) id
  flows a b hab := ((ha.flows a b hab).elim (h.flows a b) id).mono hmono
  edges m e he := (ha.edges m e he).elim (h.edges m e) id

/-- What has to be shown of a task that keeps a state timely. -/
theorem Timely.step (h : c.Timely (t :: rest)) (hplaced : c'.Placed)
    (he : c.elements.Evolves c'.elements) (hmono : ∀ m, c.Reaches m → c'.Reaches m)
    (hreach : ∀ m, t = .reach m → c'.Reaches m)
    (hqueue : ∀ M : CtxMethod → Prop, (∀ m, c'.Reaches m → M m) → (∀ m, .reach m ∈ ts → M m) →
      Queued M c.worklist.items → Queued M c'.worklist.items)
    (hinTime : Ordered (Task.InTime []) c'.Reaches ts) (hhome : ∀ t' ∈ ts, t'.AtHome)
    (hdue : ∀ x, .announce x ∈ ts → x.Fits c'.elements ∧ ∀ m, x = .newCtxMethod m → c'.Reaches m) :
    c'.Timely (ts ++ rest) where
  toPlaced := hplaced
  queued := by
    apply hqueue _ (fun m => .inl) fun m hm => .inr (List.mem_append_left rest hm)
    refine h.queued.mono fun m hm => ?_
    rcases hm with hm | hm
    · exact .inl (hmono m hm)
    · rcases List.mem_cons.1 hm with hm | hm
      · exact .inl (hreach m hm.symm)
      · exact .inr (List.mem_append_right ts hm)
  inTime := by
    apply Ordered.append_of_mono (fun M M' => Task.InTime.mono) hinTime
    refine h.inTime.2.mono (fun M M' => Task.InTime.mono) fun m hm => ?_
    exact hm.elim (hmono m) (hreach m)
  atHome t' ht' := (List.mem_append.1 ht').elim (hhome t')
    fun ht' => h.atHome t' (List.mem_cons_of_mem t ht')
  due x hx := by
    rcases List.mem_append.1 hx with hx | hx
    · exact hdue x hx
    · obtain ⟨hfits, hreached⟩ := h.due x (List.mem_cons_of_mem t hx)
      exact ⟨hfits.mono he h.tables, fun m hm => hmono m (hreached m hm)⟩

/-- A task that adds things for reachable methods, and calls for tasks about them. -/
theorem Timely.adheres (h : c.Timely (t :: rest)) (ha : Adheres c.Reaches c c')
    (hmono : ∀ m, c.Reaches m → c'.Reaches m) (hreach : ∀ m, t = .reach m → c'.Reaches m)
    (hinTime : Ordered (Task.InTime []) c'.Reaches ts) (hhome : ∀ t' ∈ ts, t'.AtHome)
    (hdue : ∀ x, .announce x ∈ ts → x.Fits c'.elements ∧ ∀ m, x = .newCtxMethod m → c'.Reaches m) :
    c'.Timely (ts ++ rest) :=
  h.step (h.toPlaced.adheres ha hmono) ha.elements hmono hreach
    (fun M hM _ => ha.queue M fun m hm => hM m (hmono m hm)) hinTime hhome hdue

/-! ### What a task can do -/

/-- What is called for when `m` becomes reachable. -/
def arrival (m : CtxMethod) (body : List StmtId) (seen : Bool) : List Task :=
  (if seen then [] else introduction m.method body) ++
    (body.map fun s => .exec m s false) ++ [.announce (.newCtxMethod m)]

/-- What is called for when new objects have reached a pointer. -/
def onward (delta : PointsToSet) : Pointer → List Task
  | .var ctx v => [.announce (.newPointsTo ctx v delta), .wake ctx v delta]
  | .field _ _ => []

/-- What a task that succeeds can do. In each case the state is the one before with a single change,
up to things that are added for reachable methods. -/
inductive Move (c : Core) : Task → Core → List Task → Prop
  | confined {t : Task} {c' : Core} {ts : List Task} (ht : ∀ m, t = .reach m → c.Reaches m)
      (hs : t = .begin → c.started = true) (state : Confined c.Reaches c c')
      (ensues : ∀ t' ∈ ts, t'.Ensues c.Reaches) : Move c t c' ts
  | begin (h : c.started = false) : Move c .begin { c with started := true }
      (.announce .start :: c.entries.flatMap fun m => [.reach ⟨[], m⟩, .enter ⟨[], m⟩])
  | ignored {m : CtxMethod} {c' : Core} (hm : ¬ c.Reaches m) (hi : m.method ∈ c.ignored)
      (state : Confined c.Reaches (c.modifyCalls (·.addMethod m)) c') : Move c (.reach m) c' []
  | reached {m : CtxMethod} {c' : Core} (hm : ¬ c.Reaches m) (hi : m.method ∉ c.ignored)
      (state : Confined c.Reaches
        { c.modifyCalls (·.addMethod m) with seen := c.seen.insert m.method } c')
      (built : c'.elements.isBuilt m.method = true) :
      Move c (.reach m) c' (arrival m (c'.elements.code m.method).body (m.method ∈ c.seen))
  | record {m : CtxMethod} {e : CtxEdge} {c' : Core}
      (state : Confined c.Reaches (c.modifyCalls (·.addEdge m e)) c') :
      Move c (.record m e) c' [.announce (.newCallEdge e), .bind e]
  | drain (h : c.worklist.items ≠ []) : Move c .drain c [.next, .drain]
  | skip {i : WorkItem} {items : List WorkItem} (hitems : c.worklist.items = i :: items)
      (hi : ∀ m e, i = .edge m e → c.Reaches e.callee) : Move c .next (c.remain items) []
  | arrive {p : Pointer} {os : PointsToSet} {items : List WorkItem} {c' : Core}
      (hitems : c.worklist.items = .objects p os :: items)
      (hnew : ∃ o ∈ os, ¬ c.Holds (.points p o))
      (state : Confined c.Reaches ((c.remain items).arrive p os (os.diff (c.pointsTo p))) c') :
      Move c .next c' (onward (os.diff (c.pointsTo p)) p)
  | call {m : CtxMethod} {e : CtxEdge} {items : List WorkItem}
      (hitems : c.worklist.items = .edge m e :: items)
      (hnew : c.analysis.calls.hasEdge e.site e.callee = false) :
      Move c .next (c.remain items) [.reach e.callee, .record m e]

theorem Move.still (ht : ∀ m, t = .reach m → c.Reaches m) (hs : t = .begin → c.started = true)
    (h : Confined c.Reaches c c') : Move c t c' [] :=
  .confined ht hs h (List.forall_mem_nil _)

theorem reach_move (hok : c.reach m = (c', .ok ts)) : Move c (.reach m) c' ts := by
  unfold reach at hok
  split at hok <;> rename_i hm <;> rw [CallGraph.contains_iff] at hm
  · cases hok
    refine .still ?_ ?_ (.refl _ c)
    · rintro _ ⟨⟩
      exact hm
    · rintro ⟨⟩
  · simp only at hok
    split at hok <;> rename_i hi
    · cases hok
      exact .ignored hm hi ((Confined.refl _ _).tell _ _)
    · obtain ⟨hbuilt, hok⟩ := lowering_ok hok
      have hlow := (Confined.refl c.Reaches
        { c.modifyCalls (·.addMethod m) with seen := c.seen.insert m.method }).lower m.method
      split at hok <;> rename_i hseen <;> cases hok
      · have hsame : c.seen.insert m.method = c.seen := OrderedSet.insert_of_mem hseen
        rw [hsame] at hlow
        have hmove := Move.reached hm hi (hsame.symm ▸ hlow) hbuilt
        rwa [decide_eq_true (show m.method ∈ c.seen from hseen)] at hmove
      · have hmove := Move.reached hm hi
          (hlow.tell .debug ("new reachable method " ++ c.program.signature m.method)) hbuilt
        rwa [decide_eq_false (show m.method ∉ c.seen from hseen)] at hmove

theorem next_move (hwf : c.WellFormed) (hfifo : c.worklist.order = .fifo)
    (hok : c.next = (c', .ok ts)) : Move c .next c' ts := by
  rcases next_spec c with ⟨-, heq⟩ | ⟨l₁, i, items, hitems, hfirst, hrest⟩
  · cases hok.symm.trans heq
    exact .still (by rintro _ ⟨⟩) (by rintro ⟨⟩) (.refl _ c)
  obtain rfl := hfirst hfifo
  rw [List.nil_append] at hitems hrest
  rcases hrest with ⟨p, os, rfl, heq⟩ | ⟨m, e, rfl, heq⟩
  · rcases (c.remain items).takeObjects_cases p os with ⟨-, heq'⟩ | ⟨hnew, htake⟩
    · cases hok.symm.trans (heq.trans heq')
      exact .skip hitems nofun
    · rcases htake with ⟨o, x, rfl, heq'⟩ | ⟨ctx, v, text, rfl, heq'⟩
      · cases hok.symm.trans (heq.trans heq')
        exact .arrive hitems hnew (.refl _ _)
      · cases hok.symm.trans (heq.trans heq')
        exact .arrive hitems hnew ((Confined.refl _ _).tell _ _)
  · rcases (c.remain items).takeEdge_spec m e with ⟨hold, heq'⟩ | ⟨hnew, heq'⟩
    · cases hok.symm.trans (heq.trans heq')
      refine .skip hitems ?_
      rintro _ _ ⟨⟩
      obtain ⟨x, hx, -, hcallee⟩ := (hwf.calls.recorded _ _).1 hold
      exact hcallee ▸ (hwf.calls.joined x hx).2
    · cases hok.symm.trans (heq.trans heq')
      exact .call hitems hnew

theorem confined_statistics (N : CtxMethod → Prop) (c : Core) : Confined N c c.statistics := by
  have htell : ∀ {c₁ : Core} (level : Level) (text : String), Confined N c c₁ →
      Confined N c (c₁.tell level text) := fun level text h => h.tell level text
  unfold statistics
  repeat refine htell _ _ ?_
  exact .refl N c

/-- What a task does when it succeeds. -/
theorem perform_move (hwf : c.WellFormed) (h : c.Timely (t :: rest))
    (hok : c.perform t = (c', .ok ts)) : Move c t c' ts := by
  have hminor : t.isMinor = true → Move c t c' ts := by
    intro hm
    have hr := perform_confined h.tables hwf.sound h.watchers hm h.inTime.1
      (h.atHome t List.mem_cons_self)
    rw [hok] at hr
    refine .confined ?_ ?_ hr.state (hr.ensues ts rfl)
    · rintro m rfl
      cases hm
    · rintro rfl
      cases hm
  cases t with
  | exec | react | dispatch | wake | bind => exact hminor rfl
  | begin =>
    simp only [perform, Core.begin] at hok
    split at hok <;> rename_i hs
    · cases hok
      exact .still (by rintro _ ⟨⟩) (fun _ => hs) (.refl _ c)
    · cases hok
      exact .begin (by simpa using hs)
  | reach m => exact reach_move hok
  | enter m =>
    cases hok
    have hm : m ∈ c.analysis.calls.methods := h.inTime.1
    have hsame : (c.analysis.calls.addEntry m).methods = c.analysis.calls.methods :=
      CallGraph.methods_addEntry.trans (OrderedSet.insert_of_mem hm)
    refine .still (by rintro _ ⟨⟩) (by rintro ⟨⟩)
      ⟨.of_eq .refl rfl rfl rfl, ?_, rfl, rfl, fun _ => rfl⟩
    simp only [standing, modifyCalls, hsame]
    rfl
  | next => exact next_move hwf h.fifo hok
  | drain =>
    simp only [perform, Core.drain] at hok
    split at hok <;> rename_i hempty
    · cases hok
      exact .still (by rintro _ ⟨⟩) (by rintro ⟨⟩) (.refl _ c)
    · cases hok
      exact .drain (by simpa using hempty)
  | record m e =>
    cases hok
    exact .record ((Confined.refl _ _).tell _ _)
  | announce x =>
    cases hok
    exact .still (by rintro _ ⟨⟩) (by rintro ⟨⟩) (.refl _ c)
  | statistics =>
    cases hok
    exact .still (by rintro _ ⟨⟩) (by rintro ⟨⟩) (confined_statistics _ c)

/-! ### Tasks keep a state timely -/

theorem reaches_congr (h : c'.analysis.calls.methods = c.analysis.calls.methods) (m : CtxMethod) :
    c'.Reaches m ↔ c.Reaches m := by
  simp only [Reaches, Holds, h]

theorem Confined.reaches {N : CtxMethod → Prop} (h : Confined N c c') (m : CtxMethod) :
    c'.Reaches m ↔ c.Reaches m :=
  reaches_congr (congrArg Standing.methods h.standing_eq) m

theorem reaches_addMethod (c : Core) (m m' : CtxMethod) :
    (c.modifyCalls (·.addMethod m)).Reaches m' ↔ c.Reaches m' ∨ m' = m := by
  simp [Reaches, Holds, modifyCalls]

/-- The callee of a call edge that is taken off the queue must be reachable, or become so next. -/
theorem adheres_remain {N : CtxMethod → Prop} {i : WorkItem} {items : List WorkItem}
    (hitems : c.worklist.items = i :: items) (hi : ∀ m e, i = .edge m e → N e.callee) :
    Adheres N c (c.remain items) := by
  refine ⟨.refl, rfl, fun _ _ => .inl, fun _ _ _ => .inl, fun M hM hq => ?_, fun m e he => .inl ?_⟩
  · rw [hitems] at hq
    refine hq.2.mono fun m hm => ?_
    rcases hm with hm | ⟨m', e, rfl, rfl⟩
    · exact hm
    · exact hM _ (hi m' e rfl)
  · rw [hitems]
    exact List.mem_cons_of_mem i he

/-- Objects are sent on to where the pointer flows. -/
theorem adheres_arrive {N : CtxMethod → Prop} {p : Pointer} (os sent : PointsToSet)
    (h : ∀ b, c.Holds (.flow p b) → b.In N) : Adheres N c (c.arrive p os sent) := by
  rw [arrive, foldl_push_objects]
  refine ⟨.refl, rfl, fun _ _ => .inl, fun _ _ _ => .inl, fun M hM hq => ?_, fun m e he => ?_⟩
  · refine hq.append fun M' hM' _ i hi f hf => ?_
    obtain ⟨b, hb, rfl⟩ := List.mem_map.1 hi
    cases hf with
    | points => exact (h b (FlowGraph.hasEdge_iff.2 hb)).mono fun m hm => hM' m (hM m hm)
  · rcases List.mem_append.1 he with he | he
    · exact .inl he
    · obtain ⟨b, -, hb⟩ := List.mem_map.1 he
      cases hb

theorem mem_arrival {body : List StmtId} {seen : Bool} (ht : t ∈ arrival m body seen) :
    t = .announce (.newMethod m.method) ∨ (∃ s ∈ body, t = .announce (.newStmt s m.method)) ∨
      (∃ s ∈ body, t = .exec m s false) ∨ t = .announce (.newCtxMethod m) := by
  simp only [arrival, List.mem_append, List.mem_map, List.mem_singleton] at ht
  rcases ht with (ht | ⟨s, hs, rfl⟩) | rfl
  · cases seen with
    | true => cases ht
    | false =>
      simp only [Bool.false_eq_true, if_false, introduction, List.mem_cons, List.mem_map] at ht
      rcases ht with rfl | ⟨s, hs, rfl⟩
      · exact .inl rfl
      · exact .inr (.inl ⟨s, hs, rfl⟩)
  · exact .inr (.inr (.inl ⟨s, hs, rfl⟩))
  · exact .inr (.inr (.inr rfl))

namespace Timely

theorem begin (h : c.Timely (.begin :: rest)) :
    { c with started := true }.Timely ((Task.announce .start :: c.entries.flatMap fun m =>
      [Task.reach ⟨[], m⟩, .enter ⟨[], m⟩]) ++ rest) := by
  have ha : Adheres c.Reaches c { c with started := true } := .of_eq .refl rfl rfl rfl
  apply h.adheres ha (fun _ => id) nofun
  · have hentries : Ordered (Task.InTime [])
        (fun m => c.Reaches m ∨ Task.announce .start = .reach m)
        ((c.entries.flatMap fun m => [Task.reach ⟨[], m⟩, .enter ⟨[], m⟩]) ++ []) :=
      InOrder.inTime_entries c.entries fun _ _ => trivial
    rw [List.append_nil] at hentries
    exact ⟨trivial, hentries⟩
  · intro t ht
    simp only [List.mem_cons, List.mem_flatMap, List.not_mem_nil, or_false] at ht
    rcases ht with rfl | ⟨m, -, rfl | rfl⟩ <;> trivial
  · intro x hx
    simp only [List.mem_cons, List.mem_flatMap, List.not_mem_nil, or_false] at hx
    rcases hx with hx | ⟨m, -, hx | hx⟩ <;> cases hx
    exact ⟨trivial, nofun⟩

theorem reached (h : c.Timely (.reach m :: rest)) (seen : Bool)
    (state : Confined c.Reaches
      { c.modifyCalls (·.addMethod m) with seen := c.seen.insert m.method } c')
    (built : c'.elements.isBuilt m.method = true) :
    c'.Timely (arrival m (c'.elements.code m.method).body seen ++ rest) := by
  have hreaches : ∀ m', c'.Reaches m' ↔ c.Reaches m' ∨ m' = m := fun m' =>
    (state.reaches m').trans (reaches_addMethod c m m')
  have hm : c'.Reaches m := (hreaches m).2 (.inr rfl)
  have hfirst : Adheres c.Reaches c
      { c.modifyCalls (·.addMethod m) with seen := c.seen.insert m.method } :=
    .of_eq .refl rfl rfl rfl
  have ha := hfirst.trans state.toAdheres
  have hcode := (ha.elements.local h.tables).home m.method
  apply h.adheres ha (fun m' hm' => (hreaches m').2 (.inl hm'))
  · rintro _ ⟨⟩
    exact hm
  · apply ordered_of_forall fun M M' => Task.InTime.mono
    intro t ht
    rcases mem_arrival ht with rfl | ⟨s, -, rfl⟩ | ⟨s, -, rfl⟩ | rfl
    · trivial
    · trivial
    · exact hm
    · trivial
  · intro t ht
    rcases mem_arrival ht with rfl | ⟨s, -, rfl⟩ | ⟨s, hs, rfl⟩ | rfl
    · trivial
    · trivial
    · exact (hcode.body s hs).1
    · trivial
  · intro x hx
    rcases mem_arrival hx with hx | ⟨s, hs, hx⟩ | ⟨s, -, hx⟩ | hx <;> cases hx
    · exact ⟨trivial, nofun⟩
    · exact ⟨⟨built, hs⟩, nofun⟩
    · refine ⟨trivial, ?_⟩
      rintro _ ⟨⟩
      exact hm

theorem record (h : c.Timely (.record m e :: rest))
    (state : Confined c.Reaches (c.modifyCalls (·.addEdge m e)) c') :
    c'.Timely ([.announce (.newCallEdge e), .bind e] ++ rest) := by
  have hmono : ∀ m', c.Reaches m' → c'.Reaches m' := fun m' hm' =>
    (state.reaches m').2 (CallGraph.mem_methods_addEdge.2 (.inl hm'))
  obtain ⟨hcaller, hcallee⟩ := h.inTime.1
  have hhome : m = ⟨e.site.ctx, e.site.site.method⟩ := h.atHome _ List.mem_cons_self
  have hfirst : Adheres c.Reaches c (c.modifyCalls (·.addEdge m e)) := .of_eq .refl rfl rfl rfl
  apply h.adheres (hfirst.trans state.toAdheres) hmono nofun
  · exact ⟨trivial, ⟨.inl (hmono _ (hhome ▸ hcaller)), .inl (hmono _ hcallee)⟩, trivial⟩
  · simp [Task.AtHome]
  · intro x hx
    simp only [List.mem_cons, List.not_mem_nil, or_false] at hx
    rcases hx with hx | hx <;> cases hx
    exact ⟨trivial, nofun⟩

theorem ignored (h : c.Timely (.reach m :: rest))
    (state : Confined c.Reaches (c.modifyCalls (·.addMethod m)) c') : c'.Timely ([] ++ rest) := by
  have hreaches : ∀ m', c'.Reaches m' ↔ c.Reaches m' ∨ m' = m := fun m' =>
    (state.reaches m').trans (reaches_addMethod c m m')
  have hfirst : Adheres c.Reaches c (c.modifyCalls (·.addMethod m)) := .of_eq .refl rfl rfl rfl
  refine h.adheres (hfirst.trans state.toAdheres) (fun m' hm' => (hreaches m').2 (.inl hm')) ?_
    trivial (List.forall_mem_nil _) (fun x hx => absurd hx List.not_mem_nil)
  rintro _ ⟨⟩
  exact (hreaches m).2 (.inr rfl)

section

variable (h : c.Timely (.next :: rest)) (hrest : ∀ m, .reach m ∉ rest)

include h hrest

/-- When an item is taken up, no method is about to become reachable. -/
theorem queued_next : Queued c.Reaches c.worklist.items := by
  refine h.queued.mono fun m hm => ?_
  rcases hm with hm | hm
  · exact hm
  · rcases List.mem_cons.1 hm with hm | hm
    · cases hm
    · exact absurd hm (hrest m)

theorem arrive {p : Pointer} {os delta : PointsToSet} {items : List WorkItem} {o : Obj}
    (hitems : c.worklist.items = .objects p os :: items) (ho : o ∈ os)
    (state : Confined c.Reaches ((c.remain items).arrive p os delta) c') :
    c'.Timely (onward delta p ++ rest) := by
  have hp : p.In c.Reaches := by
    have hqueued := h.queued_next hrest
    rw [hitems] at hqueued
    exact hqueued.1 _ (.points ho)
  have hreaches : ∀ m, c'.Reaches m ↔ c.Reaches m := by
    intro m
    rw [state.reaches, Core.arrive, foldl_push_objects]
    rfl
  have hpop : Adheres c.Reaches c (c.remain items) := adheres_remain hitems (by rintro _ _ ⟨⟩)
  have hsend : Adheres c.Reaches (c.remain items) ((c.remain items).arrive p os delta) :=
    adheres_arrive os delta fun b hb => h.flows p b hb
  apply h.adheres ((hpop.trans hsend).trans state.toAdheres) (fun m => (hreaches m).2)
    (by rintro _ ⟨⟩)
  · cases p with
    | field => trivial
    | var ctx v => exact ⟨trivial, .inl ((hreaches _).2 hp), trivial⟩
  · cases p with
    | field => exact List.forall_mem_nil _
    | var ctx v => simp [onward, Task.AtHome]
  · intro x hx
    cases p with
    | field => cases hx
    | var ctx v =>
      simp only [onward, List.mem_cons, List.not_mem_nil, or_false] at hx
      rcases hx with hx | hx <;> cases hx
      exact ⟨trivial, by rintro _ ⟨⟩⟩

theorem call {items : List WorkItem} (hitems : c.worklist.items = .edge m e :: items) :
    (c.remain items).Timely ([.reach e.callee, .record m e] ++ rest) := by
  have hm : c.Reaches m := by
    have hqueued := h.queued_next hrest
    rw [hitems] at hqueued
    exact hqueued.1 _ .edge
  have hedges : ∀ m' e', .edge m' e' ∈ items → m' = ⟨e'.site.ctx, e'.site.site.method⟩ := by
    intro m' e' he'
    apply h.edges
    rw [hitems]
    exact List.mem_cons_of_mem _ he'
  have hplaced : (c.remain items).Placed := ⟨h.tables, h.fifo, h.watchers, h.flows, hedges⟩
  apply h.step hplaced .refl (fun _ => id) nofun
  · intro M hM hcallee
    refine (adheres_remain (N := M) hitems ?_).queue M fun _ => id
    rintro _ _ ⟨⟩
    exact hcallee _ List.mem_cons_self
  · exact ⟨trivial, ⟨.inl hm, .inr rfl⟩, trivial⟩
  · intro t ht
    simp only [List.mem_cons, List.not_mem_nil, or_false] at ht
    rcases ht with rfl | rfl
    · trivial
    · refine h.edges m e ?_
      rw [hitems]
      exact List.mem_cons_self
  · simp

end

/-- A task keeps a state timely. -/
theorem move (h : c.Timely (t :: rest)) (hrest : t = .next → ∀ m, .reach m ∉ rest)
    (hmove : Move c t c' ts) : c'.Timely (ts ++ rest) := by
  cases hmove with
  | confined ht _ state ensues =>
    have hmono : ∀ m, c.Reaches m → c'.Reaches m := fun m => (state.reaches m).2
    apply h.adheres state.toAdheres hmono (fun m hm => hmono m (ht m hm))
    · apply ordered_of_forall fun M M' => Task.InTime.mono
      intro t' ht'
      exact (ensues t' ht').inTime.mono hmono
    · exact fun t' ht' => (ensues t' ht').atHome
    · intro x hx
      have hx := ensues _ hx
      cases x with
      | unresolvedCall => exact ⟨trivial, nofun⟩
      | _ => exact hx.elim
  | begin => exact h.begin
  | ignored _ _ state => exact h.ignored state
  | reached _ _ state built => exact h.reached _ state built
  | record state => exact h.record state
  | drain =>
    exact h.adheres (.refl _ c) (fun _ => id) nofun ⟨trivial, trivial, trivial⟩
      (by simp [Task.AtHome]) (by simp)
  | skip hitems hi =>
    exact h.adheres (adheres_remain hitems hi) (fun _ => id) nofun trivial (List.forall_mem_nil _)
      (fun x hx => absurd hx List.not_mem_nil)
  | arrive hitems hnew state =>
    obtain ⟨o, ho, -⟩ := hnew
    exact h.arrive (hrest rfl) hitems ho state
  | call hitems => exact h.call (hrest rfl) hitems

end Timely

/-! ### Announcements keep a state timely -/

namespace Heeds

variable {x : Event}

theorem standing_eq (h : Heeds x c c') : c'.standing = { c.standing with ignored := c'.ignored } :=
  congrArg standing h.core_eq

theorem started_eq (h : Heeds x c c') : c'.started = c.started :=
  (congrArg Core.started h.core_eq :)

theorem pointsTo_eq (h : Heeds x c c') (p : Pointer) : c'.pointsTo p = c.pointsTo p :=
  (congrArg (pointsTo · p) h.core_eq :)

theorem reaches (h : Heeds x c c') (m : CtxMethod) : c'.Reaches m ↔ c.Reaches m :=
  reaches_congr (congrArg Standing.methods h.standing_eq) m

theorem adheres {N : CtxMethod → Prop} (h : Heeds x c c') : Adheres N c c' :=
  .of_eq h.elements (congrArg Core.flow h.core_eq :) (congrArg Core.watchers h.core_eq :)
    (congrArg Core.worklist h.core_eq :)

end Heeds

/-- An announcement to a local plugin keeps a state timely. -/
theorem Timely.heed {x : Event} (h : c.Timely (.announce x :: rest)) (hx : Heeds x c c')
    (hts : ∀ t ∈ ts, ∃ m id, t = .exec m id true ∧ x = .newCtxMethod m ∧ id.method = m.method) :
    c'.Timely (ts ++ rest) := by
  have hdue := (h.due x List.mem_cons_self).2
  apply h.adheres hx.adheres (fun m => (hx.reaches m).2) nofun
  · apply ordered_of_forall fun M M' => Task.InTime.mono
    intro t ht
    obtain ⟨m, id, rfl, hm, -⟩ := hts t ht
    exact (hx.reaches m).2 (hdue m hm)
  · intro t ht
    obtain ⟨m, id, rfl, -, hid⟩ := hts t ht
    exact hid
  · intro y hy
    obtain ⟨m, id, heq, -⟩ := hts _ hy
    cases heq

end Core

end PointsTo
