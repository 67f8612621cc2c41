import PointsTo.Proofs.Solver.Edits
import PointsTo.Proofs.Solver.Runs

/-!
# Tasks with plugins

Whatever plugins a solver has, each of its tasks edits a well-formed state or takes up an item of
the worklist, and the tasks that it calls for are about things that are there (`Task.Sane`). So
every state of every run is well-formed, also after an error.

* `Core.perform_works`: a task edits the state, unless it takes up an item;
* `Core.next_sane`: taking up an item keeps a state well-formed;
* `Solver.announce_edits`: so does the reaction of a plugin;
* `Solver.settle_sane`: runs keep it, however they end.
-/

namespace PointsTo

/-- What a task is about is there. -/
def Task.Sane (c : Core) : Task → Prop
  | .react _ _ os | .wake _ _ os => ∀ o ∈ os, o ∈ c.analysis.heap.objs.keys
  | .dispatch _ site o => o ∈ c.analysis.heap.objs.keys ∧
      ∃ s lhs, c.elements.Has s (.call site.site lhs)
  | .record _ e | .bind e => c.elements.Fits e
  | .begin | .reach _ | .enter _ | .exec _ _ _ | .next | .drain | .announce _ | .statistics => True

/-- What a task puts on record. -/
def Task.Deeds : Task → Core.Deed → Prop
  | .exec m s injected, .watch p s' => injected = true ∧ ∃ v, p = .var m.ctx v ∧ s' = s
  | .record m e, .record m' e' => m' = m ∧ e' = e
  | _, _ => False

theorem Task.Sane.mono {c c' : Core} {t : Task} (h : c.Grows c') (ht : t.Sane c) : t.Sane c' := by
  cases t with
  | react m s os => exact fun o ho => h.mem_objs (ht o ho)
  | wake ctx v os => exact fun o ho => h.mem_objs (ht o ho)
  | dispatch m site o =>
    obtain ⟨ho, s, lhs, hs⟩ := ht
    exact ⟨h.mem_objs ho, s, lhs, h.elements.grows.has hs⟩
  | record m e => exact h.elements.grows.fits ht
  | bind e => exact h.elements.grows.fits ht
  | begin | reach | enter | exec | next | drain | announce | statistics => trivial

namespace Core

/-- The outcome of a task that edits the state `c` and puts at most `D` on record. -/
structure Outcome.Works (D : Deed → Prop) (c : Core) (r : Outcome) : Prop where
  edits : Edits D c r.1
  sane : ∀ ts, r.2 = .ok ts → ∀ t ∈ ts, t.Sane r.1

variable {D : Deed → Prop} {c c₁ c₂ : Core} {m : CtxMethod} {s : StmtId} {o : Obj} {e : CtxEdge}

theorem works_proceed (h : Edits D c c₁) {ts : List Task} (hts : ∀ t ∈ ts, t.Sane c₁) :
    Outcome.Works D c (c₁.proceed ts) :=
  ⟨h, by rintro _ ⟨⟩; exact hts⟩

theorem edits_tell (c : Core) (level : Level) (text : String) : Edits D c (c.tell level text) :=
  .single (.tables (.tell .refl level text))

theorem edits_lower (c : Core) (m : MethodId) : Edits D c (c.lower m).2 :=
  .single (.tables (.serve .refl (.lower m)))

/-- A method is lowered first, and that may fail. -/
theorem works_lowering {m : MethodId} {k : Core → Outcome} (h : Edits D c c₁)
    (hk : Edits D c (c₁.lower m).2 → Outcome.Works D c (k (c₁.lower m).2)) :
    Outcome.Works D c (c₁.lowering m k) := by
  have hlow : Edits D c (c₁.lower m).2 := h.trans (edits_lower c₁ m)
  replace hk := hk hlow
  unfold lowering
  cases hl : c₁.lower m with
  | mk r c₂ =>
    rw [hl] at hlow hk
    cases r with
    | ok => exact hk
    | error e => exact ⟨hlow, nofun⟩

theorem edits_foldl_link {α : Type} (l : List α) (a b : α → Pointer) (c : Core) :
    Edits D c (l.foldl (fun c x => c.link (a x) (b x)) c) := by
  induction l generalizing c with
  | nil => exact .refl
  | cons x l ih => exact .head (.link (a x) (b x)) (ih _)

/-! ### Statements -/

theorem watch_works (h : c.WellFormed) (m : CtxMethod) (v : VarId) {st : Stmt}
    (hs : c.elements.Has s st) {injected : Bool}
    (hd : injected = true → D (.watch (.var m.ctx v) s)) :
    Outcome.Works D c (c.watch m v s injected) := by
  have hpointer : Edits D c (c.addPointer (.var m.ctx v)) := .single (.pointer _)
  set c₁ := c.addPointer (.var m.ctx v) with hc₁
  set c₂ := if injected then
    { c₁ with watchers := c₁.watchers.update (.var m.ctx v) [] (· ++ [s]) } else c₁ with hc₂
  have hedits : Edits D c c₂ := by
    rw [hc₂]
    split <;> rename_i hi
    · exact hpointer.tail (.watch (hd hi) (hpointer.grows.elements.grows.has hs))
    · exact hpointer
  -- the objects that are there already were made before, since the state is still well-formed
  have hwf := h.edits hedits
  unfold watch
  simp only [← hc₁, ← hc₂]
  split
  · exact works_proceed hedits nofun
  · refine works_proceed hedits fun t ht => ?_
    rw [List.mem_singleton.1 ht]
    exact fun o ho => (hwf.admits (.points _ o) (.inl ho)).2

/-- A call edge that fits is put on the worklist. -/
theorem edits_call (m : CtxMethod) (kind : CallKind) (site : CtxSite) (receiver : Option Obj)
    (callee : MethodId) (hfit : c.elements.Fits
      ⟨kind, site, ⟨c.policy.calleeContext site.ctx site.site receiver, callee⟩⟩) :
    Edits D c (c.call m kind site receiver callee) := by
  refine .tail (.single (.context (c.policy.calleeContext site.ctx site.site receiver))) (.push ?_)
  rintro f ⟨⟩
  exact hfit

/-- The edges of a call that is there fit. -/
theorem WellFormed.fits (h : c.WellFormed) (site : CtxSite) (callee : CtxMethod)
    {lhs : Option VarId} (hs : c.elements.Has s (.call site.site lhs)) :
    c.elements.Fits ⟨(c.elements.site site.site).kind, site, callee⟩ := by
  obtain ⟨t, owner, ht, howner⟩ := h.sound.owned s site.site lhs hs
  exact ⟨t, owner, ht, howner, by rw [Elements.site_of_site? ht]⟩

theorem edits_alloc {ty : Ty} {lhs : VarId} (hs : c.elements.Has o.site (.alloc lhs ty))
    (p : Pointer) :
    Edits D c ((((c.useContext o.heap).addObj o ty).addPointer p).push
      (.objects p (.singleton o))) := by
  have hobject : Edits D c ((c.useContext o.heap).addObj o ty) :=
    .tail (.single (.context o.heap)) (.object hs)
  refine (hobject.tail (.pointer p)).tail (.push ?_)
  rintro f ⟨ho⟩
  rw [OrderedSet.mem_singleton.1 ho]
  refine ⟨Heap.mem_keys_addPointer.2 (.inr rfl), ?_⟩
  exact (Heap.objs_addPointer _ _).symm ▸ Table.mem_keys_insert.2 (.inr rfl)

/-- The variable whose objects a statement is applied to. -/
def awaited? (c : Core) : Stmt → Option VarId
  | .load _ base _ | .store base _ _ => some base
  | .call id _ =>
    if (c.elements.site id).kind.isDispatched then (c.elements.site id).receiver else none
  | .alloc _ _ | .assign _ _ => none

/-- A statement that is applied to objects waits for them. -/
theorem exec_watch {st : Stmt} {v : VarId} (hs : c.elements.Has s st) (hv : c.awaited? st = some v)
    (m : CtxMethod) (injected : Bool) :
    ∃ c₁, Edits (fun _ => False) c c₁ ∧ c.exec m s injected = c₁.watch m v s injected := by
  unfold exec
  rw [hs]
  cases st with
  | alloc | assign => cases hv
  | load lhs base x =>
    cases hv
    exact ⟨c, .refl, rfl⟩
  | store base x rhs =>
    cases hv
    exact ⟨c, .refl, rfl⟩
  | call id lhs =>
    refine ⟨c.modifyCalls (·.addSite m ⟨m.ctx, id⟩), .single (.site m _), ?_⟩
    simp only [awaited?] at hv
    split at hv <;> rename_i hk
    · simp only [execCall, hv]
      cases hkind : (c.elements.site id).kind with
      | virtual | interface => rfl
      | static | special | dynamic => simp [hkind, CallKind.isDispatched] at hk
    · cases hv

/-- Other statements wait for nothing. -/
theorem exec_quiet (h : c.WellFormed) {st : Stmt} (hs : c.elements.Has s st)
    (hv : c.awaited? st = none) (m : CtxMethod) (injected : Bool) :
    Outcome.Works D c (c.exec m s injected) := by
  unfold exec
  rw [hs]
  cases st with
  | alloc lhs ty => exact works_proceed (edits_alloc (o := ⟨s, _⟩) hs (.var m.ctx lhs)) nofun
  | assign lhs rhs => exact works_proceed (.single (.link _ _)) nofun
  | load | store => cases hv
  | call id lhs =>
    have hsite : Edits D c (c.modifyCalls (·.addSite m ⟨m.ctx, id⟩)) := .single (.site m _)
    have hcall := hsite.trans (edits_call m (c.elements.site id).kind ⟨m.ctx, id⟩ none
      (c.elements.site id).target (h.fits ⟨m.ctx, id⟩ _ hs))
    simp only [awaited?] at hv
    simp only [execCall]
    -- bound at once; dispatched with a receiver, which would wait; dispatched without; dynamic
    split
    case h_1 | h_2 => exact works_proceed hcall nofun
    case h_3 hk hr | h_4 hk hr => simp [hk, hr, CallKind.isDispatched] at hv
    case h_5 | h_6 => exact works_proceed hsite nofun
    case h_7 =>
      refine works_proceed (hsite.trans (edits_tell _ _ _)) fun t ht => ?_
      rw [List.mem_singleton.1 ht]
      trivial

theorem exec_works (h : c.WellFormed) {m : CtxMethod} {injected : Bool}
    (hd : ∀ v, injected = true → D (.watch (.var m.ctx v) s)) :
    Outcome.Works D c (c.exec m s injected) := by
  cases hs : (c.elements.stmt? s).map PlacedStmt.stmt with
  | none =>
    unfold exec
    rw [hs]
    exact works_proceed .refl nofun
  | some st =>
    cases hv : c.awaited? st with
    | none => exact exec_quiet h hs hv m injected
    | some v =>
      obtain ⟨c₁, hedits, heq⟩ := exec_watch hs hv m injected
      have hw := watch_works (h.edits hedits) m v (hedits.grows.elements.grows.has hs) (hd v)
      rw [heq]
      exact ⟨hedits.of_quiet.trans hw.edits, hw.sane⟩

theorem react_works (m : CtxMethod) (s : StmtId) {os : PointsToSet}
    (hos : ∀ o ∈ os, o ∈ c.analysis.heap.objs.keys) : Outcome.Works D c (c.react m s os) := by
  unfold react
  cases hs : (c.elements.stmt? s).map PlacedStmt.stmt with
  | none => exact works_proceed .refl nofun
  | some st =>
    cases st with
    | alloc | assign => exact works_proceed .refl nofun
    | load lhs base x =>
      exact works_proceed (.head (.pointer _)
        (edits_foldl_link os.toList (.field · x) (fun _ => .var m.ctx lhs) _)) nofun
    | store base x rhs =>
      exact works_proceed (.head (.pointer _)
        (edits_foldl_link os.toList (fun _ => .var m.ctx rhs) (.field · x) _)) nofun
    | call id lhs =>
      simp only
      split
      · refine works_proceed .refl fun t ht => ?_
        obtain ⟨o, ho, rfl⟩ := List.mem_map.1 ht
        exact ⟨hos o ho, s, lhs, hs⟩
      · exact works_proceed .refl nofun

/-! ### Calls -/

theorem dispatch_works (h : c.WellFormed) (caller : CtxMethod) (site : CtxSite)
    {lhs : Option VarId} (hs : c.elements.Has s (.call site.site lhs))
    (ho : o ∈ c.analysis.heap.objs.keys) : Outcome.Works D c (c.dispatch caller site o) := by
  unfold dispatch
  simp only
  set found := c.elements.dispatch (c.analysis.heap.typeOf o)
    (c.program.subsignature (c.elements.site site.site).target)
  have hfound : Edits D c (c.withElements found.2) :=
    .single (.tables (.serve .refl (.dispatch _ _)))
  cases found.1 with
  | none => exact ⟨hfound, nofun⟩
  | some callee =>
    have hcall := hfound.trans (edits_call caller (c.elements.site site.site).kind site (some o)
      callee (hfound.grows.elements.grows.fits (h.fits site ⟨_, callee⟩ hs)))
    simp only
    split
    · exact works_proceed hcall nofun
    · refine works_lowering hcall fun hlow => ?_
      split
      · exact works_proceed hlow nofun
      · rename_i this _
        refine works_proceed ((hlow.tail (.pointer _)).tail (.push ?_)) nofun
        rintro f ⟨ho'⟩
        rw [OrderedSet.mem_singleton.1 ho']
        refine ⟨Heap.mem_keys_addPointer.2 (.inr rfl), ?_⟩
        exact (Heap.objs_addPointer _ _).symm ▸ hlow.grows.mem_objs ho

theorem edits_bindArgs (c : Core) (x y : Context) (args params : List (Option VarId)) :
    Edits D c (c.bindArgs x y args params) := by
  unfold bindArgs
  generalize args.zip params = l
  induction l generalizing c with
  | nil => exact .refl
  | cons z l ih =>
    rw [List.foldl_cons]
    match z with
    | (some a, some v) => exact .head (.link _ _) (ih _)
    | (none, _) => exact ih c
    | (some a, none) => exact ih c

theorem edits_bindResult (c : Core) (x y : Context) (returns : List VarId)
    (result : Option VarId) : Edits D c (c.bindResult x y returns result) := by
  unfold bindResult
  cases result with
  | none => exact .refl
  | some lhs =>
    exact .head (.pointer _) (edits_foldl_link returns (.var y ·) (fun _ => .var x lhs) _)

theorem bind_works (c : Core) (e : CtxEdge) : Outcome.Works D c (c.bind e) := by
  unfold bind
  split
  · exact works_proceed .refl nofun
  · refine works_lowering .refl fun hlow => ?_
    have hargs : ∀ args params, Edits D c
        ((c.lower e.callee.method).2.bindArgs e.site.ctx e.callee.ctx args params) :=
      fun args params => hlow.trans (edits_bindArgs _ _ _ args params)
    have hbound := fun args params returns result =>
      (hargs args params).trans (edits_bindResult _ e.site.ctx e.callee.ctx returns result)
    simp only
    split
    · exact works_proceed ((hbound _ _ _ _).tail (.link _ _)) nofun
    · exact works_proceed (hbound _ _ _ _) nofun

theorem record_works (hd : D (.record m e)) (he : c.elements.Fits e) :
    Outcome.Works D c (c.record m e) := by
  refine works_proceed (.head (.record hd he) (edits_tell _ _ _)) fun t ht => ?_
  simp only [List.mem_cons, List.not_mem_nil, or_false] at ht
  rcases ht with rfl | rfl
  · trivial
  · exact he

/-! ### Methods -/

theorem sane_introduction (m : MethodId) (body : List StmtId) :
    ∀ t ∈ introduction m body, t.Sane c := by
  intro t ht
  simp only [introduction, List.mem_cons, List.mem_map] at ht
  rcases ht with rfl | ⟨s, -, rfl⟩ <;> trivial

theorem reach_works (c : Core) (m : CtxMethod) : Outcome.Works D c (c.reach m) := by
  have hmethod : Edits D c (c.modifyCalls (·.addMethod m)) := .single (.method m)
  have hrun : ∀ (c' : Core) (body : List StmtId), ∀ t ∈ (body.map fun s => Task.exec m s false) ++
      [.announce (.newCtxMethod m)], t.Sane c' := by
    intro c' body t ht
    simp only [List.mem_append, List.mem_map, List.mem_singleton] at ht
    rcases ht with ⟨s, -, rfl⟩ | rfl <;> trivial
  unfold reach
  split
  · exact works_proceed .refl (List.forall_mem_nil _)
  · simp only
    split
    · exact works_proceed (hmethod.trans (edits_tell _ _ _)) (List.forall_mem_nil _)
    · refine works_lowering hmethod fun hlow => ?_
      split
      · exact works_proceed hlow (hrun _ _)
      · refine works_proceed ((hlow.tail (.note fun _ => id)).trans (edits_tell _ _ _))
          fun t ht => ?_
        rw [List.append_assoc] at ht
        exact (List.mem_append.1 ht).elim (sane_introduction _ _ t) (hrun _ _ t)

theorem begin_works (c : Core) : Outcome.Works D c c.begin := by
  unfold begin
  split
  · exact works_proceed .refl nofun
  · refine works_proceed (.single (.note fun _ => id)) fun t ht => ?_
    simp only [List.mem_cons, List.mem_flatMap, List.not_mem_nil, or_false] at ht
    rcases ht with rfl | ⟨m, -, rfl | rfl⟩ <;> trivial

theorem edits_statistics (c : Core) : Edits D c c.statistics := by
  have htell : ∀ {c₁ : Core} (level : Level) (text : String), Edits D c c₁ →
      Edits D c (c₁.tell level text) := fun level text h => h.trans (edits_tell _ level text)
  unfold statistics
  repeat refine htell _ _ ?_
  exact .refl

/-- A task edits the state, unless it takes up an item of the worklist. -/
theorem perform_works (h : c.WellFormed) {t : Task} (ht : t.Sane c) (hnext : t ≠ .next) :
    Outcome.Works t.Deeds c (c.perform t) := by
  cases t with
  | begin => exact c.begin_works
  | reach m => exact c.reach_works m
  | enter m => exact works_proceed (.single (.entry m)) nofun
  | exec m s injected => exact exec_works h fun v hi => ⟨hi, v, rfl, rfl⟩
  | react m s os => exact react_works m s ht
  | dispatch m site o =>
    obtain ⟨ho, s, lhs, hs⟩ := ht
    exact dispatch_works h m site hs ho
  | wake ctx v delta =>
    refine works_proceed .refl fun t' ht' => ?_
    obtain ⟨s, -, rfl⟩ := List.mem_map.1 ht'
    exact ht
  | next => exact absurd rfl hnext
  | drain =>
    obtain ⟨ts, hts, hall⟩ := drain_spec c
    show Outcome.Works _ c c.drain
    rw [hts]
    exact works_proceed .refl fun t ht => by rcases hall t ht with rfl | rfl <;> trivial
  | record m e => exact record_works ⟨rfl, rfl⟩ ht
  | bind e => exact c.bind_works e
  | announce => exact works_proceed .refl nofun
  | statistics => exact works_proceed c.edits_statistics nofun

/-! ### Items of the worklist -/

/-- The outcome of a task in the state `c` that keeps it well-formed. -/
structure Outcome.Sane (c : Core) (r : Outcome) : Prop where
  wellFormed : r.1.WellFormed
  grows : c.Grows r.1
  sane : ∀ ts, r.2 = .ok ts → ∀ t ∈ ts, t.Sane r.1

theorem Outcome.Works.toSane {r : Outcome} (hr : Outcome.Works D c r) (h : c.WellFormed) :
    Outcome.Sane c r :=
  ⟨h.edits hr.edits, hr.edits.grows, hr.sane⟩

theorem takeObjects_sane (h : c.WellFormed) {l₁ l₂ : List WorkItem} {p : Pointer} {os : PointsToSet}
    (hitems : c.worklist.items = l₁ ++ .objects p os :: l₂) :
    Outcome.Sane c ((c.remain (l₁ ++ l₂)).takeObjects p os) := by
  have hos : ∀ o ∈ os, c.Admits (.points p o) := fun o ho =>
    h.admits _ (due_of_items hitems (.points ho))
  rcases (c.remain (l₁ ++ l₂)).takeObjects_cases p os with ⟨hold, heq⟩ | ⟨⟨o₀, ho₀, -⟩, htake⟩
  · rw [heq]
    refine ⟨h.remain hitems ?_, grows_remain c _, by rintro _ ⟨⟩; exact nofun⟩
    rintro p' o ⟨ho⟩
    exact hold o ho
  · obtain ⟨hwf, hgrows⟩ := h.take hitems (hos o₀ ho₀).1
    rcases htake with ⟨o, x, rfl, heq⟩ | ⟨ctx, v, text, rfl, heq⟩ <;> rw [heq]
    · exact ⟨hwf, hgrows, by rintro _ ⟨⟩; exact nofun⟩
    · have htell := edits_tell (D := fun _ => False) ((c.remain (l₁ ++ l₂)).arrive (.var ctx v) os
        (os.diff ((c.remain (l₁ ++ l₂)).pointsTo (.var ctx v)))) .trace text
      refine ⟨hwf.edits htell, hgrows.trans htell.grows, ?_⟩
      rintro ts ⟨⟩ t ht
      simp only [List.mem_cons, List.not_mem_nil, or_false] at ht
      rcases ht with rfl | rfl
      · trivial
      · exact fun o ho => (hgrows.trans htell.grows).mem_objs (hos o (OrderedSet.mem_diff.1 ho).1).2

theorem takeEdge_sane (h : c.WellFormed) {l₁ l₂ : List WorkItem}
    (hitems : c.worklist.items = l₁ ++ .edge m e :: l₂) :
    Outcome.Sane c ((c.remain (l₁ ++ l₂)).takeEdge m e) := by
  have hwf : (c.remain (l₁ ++ l₂)).WellFormed := h.remain hitems nofun
  have hgrows := grows_remain c (l₁ ++ l₂)
  rcases (c.remain (l₁ ++ l₂)).takeEdge_spec m e with ⟨-, heq⟩ | ⟨-, heq⟩ <;> rw [heq]
  · exact ⟨hwf, hgrows, by rintro _ ⟨⟩; exact nofun⟩
  · refine ⟨hwf, hgrows, ?_⟩
    rintro ts ⟨⟩ t ht
    simp only [List.mem_cons, List.not_mem_nil, or_false] at ht
    rcases ht with rfl | rfl
    · trivial
    · exact h.admits (.edge m e) (due_of_items hitems .edge)

theorem next_sane (h : c.WellFormed) : Outcome.Sane c c.next := by
  rcases next_spec c with ⟨-, heq⟩ | ⟨l₁, i, l₂, hitems, -, ⟨p, os, rfl, heq⟩ | ⟨m, e, rfl, heq⟩⟩
  · rw [heq]
    exact ⟨h, .refl c, by rintro _ ⟨⟩; exact nofun⟩
  · rw [heq]
    exact takeObjects_sane h hitems
  · rw [heq]
    exact takeEdge_sane h hitems

theorem perform_sane (h : c.WellFormed) {t : Task} (ht : t.Sane c) :
    Outcome.Sane c (c.perform t) := by
  by_cases hnext : t = .next
  · subst hnext
    exact next_sane h
  · exact (perform_works h ht hnext).toSane h

end Core

/-! ### Runs -/

theorem Hook.mem_ignored_run {α : Type} (x : Hook α) (s : Stage) {m : MethodId}
    (hm : m ∈ s.ignored) : m ∈ (x.run s).2.ignored := by
  induction x generalizing s with
  | done a => exact hm
  | look k ih => exact ih _ s hm
  | ask r k ih => exact ih _ _ hm
  | ignore m' next ih => exact ih _ (OrderedSet.mem_insert.2 (.inl hm))
  | inject m' stmts next ih => exact ih _ hm
  | note line next ih => exact ih _ hm

namespace Solver

variable {P : Plugin} {s : Solver P}

/-- The reaction of a plugin edits the tables and what is noted about plugins. -/
theorem announce_edits (s : Solver P) (e : Event) :
    Core.Edits (fun _ => False) s.core (s.announce e).1.core := by
  let start : Stage :=
    { analysis := s.core.analysis, ignored := s.core.ignored, journal := s.core.journal }
  have hanalysis := (P.react e s.memory).run_analysis start
  have hdevelops := (P.react e s.memory).run_develops start
  have hignored : ∀ m ∈ s.core.ignored, m ∈ ((P.react e s.memory).run start).2.ignored :=
    fun m hm => (P.react e s.memory).mem_ignored_run start hm
  have hcore : (s.announce e).1.core =
      { s.core.withElements ((P.react e s.memory).run start).2.analysis.elements with
        ignored := ((P.react e s.memory).run start).2.ignored
        journal := ((P.react e s.memory).run start).2.journal } := by
    -- of the analysis, a plugin changes the tables only
    show Core.mk _ _ _ _ _ _ _ _ _ _ _ = _
    rw [hanalysis]
    rfl
  rw [hcore]
  exact .tail (.single (.tables hdevelops)) (.note hignored)

/-- A task is an announcement, or the plugin has no part in it. -/
theorem perform_cases (s : Solver P) (t : Task) :
    (∃ e, t = .announce e ∧ s.perform t = ((s.announce e).1, .ok (s.announce e).2)) ∨
      (∀ e, t ≠ .announce e) ∧
        s.perform t = ({ s with core := (s.core.perform t).1 }, (s.core.perform t).2) := by
  cases t with
  | announce e => exact .inl ⟨e, rfl, rfl⟩
  | _ => exact .inr ⟨nofun, rfl⟩

/-- A task keeps a state well-formed, and what is to be done about things that are there. -/
theorem perform_sane (hs : s.core.WellFormed) {t : Task} {rest : List Task}
    (hts : ∀ t' ∈ t :: rest, t'.Sane s.core) :
    (s.perform t).1.core.WellFormed ∧
      ∀ ts, (s.perform t).2 = .ok ts → ∀ t' ∈ ts ++ rest, t'.Sane (s.perform t).1.core := by
  have hrest : ∀ {c : Core}, s.core.Grows c → ∀ t' ∈ rest, t'.Sane c := fun hgrows t' ht' =>
    (hts t' (List.mem_cons_of_mem t ht')).mono hgrows
  rcases s.perform_cases t with ⟨e, rfl, heq⟩ | ⟨-, heq⟩ <;> rw [heq]
  · have hedits := s.announce_edits e
    have hgrows := hedits.grows
    refine ⟨hs.edits hedits, ?_⟩
    rintro ts ⟨⟩ t' ht'
    rcases List.mem_append.1 ht' with ht' | ht'
    · -- running a statement asks for nothing: one that is not there is passed over
      obtain ⟨x, -, rfl⟩ := List.mem_map.1 ht'
      trivial
    · exact hrest hgrows t' ht'
  · have hr := Core.perform_sane hs (hts t List.mem_cons_self)
    refine ⟨hr.wellFormed, fun ts hok t' ht' => ?_⟩
    exact (List.mem_append.1 ht').elim (hr.sane ts hok t') (hrest hr.grows t')

/-- A run keeps a state well-formed, however it ends. -/
theorem settle_sane (hs : s.core.WellFormed) {agenda : List Task}
    (hts : ∀ t ∈ agenda, t.Sane s.core) (fuel : Nat) :
    (s.settle fuel agenda).1.core.WellFormed := by
  -- the invariant speaks of the whole agenda, since a task may wait in it for long
  induction fuel generalizing s agenda with
  | zero => cases agenda <;> exact hs
  | succ fuel ih =>
    cases agenda with
    | nil => exact hs
    | cons t rest =>
      obtain ⟨hwf, hsane⟩ := perform_sane hs hts
      unfold settle
      split <;> rename_i hp <;> rw [hp] at hwf hsane
      · exact ih hwf (hsane _ rfl)
      · exact hwf

/-- Before a run nothing was found, and nothing is on the worklist. -/
theorem not_due_create (P : Plugin) (e : Elements) (journal : List String)
    (entries : List MethodId) (policy : ContextPolicy) (order : WorklistOrder) (f : Fact) :
    ¬ (create P e journal entries policy order).core.Due f := by
  rintro (hf | ⟨i, hi, -⟩)
  · cases f with
    | reach m => exact OrderedSet.not_mem_empty m hf
    | site m x => exact List.not_mem_nil hf
    | edge m x => exact List.not_mem_nil hf
    | points p o => exact OrderedSet.not_mem_empty o hf
    | flow a b => exact absurd hf Bool.false_ne_true
  · exact List.not_mem_nil hi

/-- A solver before its run. -/
theorem wellFormed_create (P : Plugin) {e : Elements} (he : e.Sound) (journal : List String)
    (entries : List MethodId) (policy : ContextPolicy) (order : WorklistOrder) :
    (create P e journal entries policy order).core.WellFormed := by
  have hno := not_due_create P e journal entries policy order
  refine ⟨he, fun v p => ?_, nofun, CallGraph.consistent_empty, nofun, ?_, ?_⟩
  · exact ⟨fun hp => absurd hp List.not_mem_nil, fun hp => absurd hp.1 List.not_mem_nil⟩
  · exact fun a b o hab => absurd (.inl hab) (hno _)
  · exact fun f hf => absurd hf (hno f)

end Solver

end PointsTo
