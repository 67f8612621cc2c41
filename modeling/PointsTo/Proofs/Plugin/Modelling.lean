import PointsTo.Proofs.Plugin.Handlers

/-!
# How models react

When a model is told of a statement, it runs the handler that it has for it, if there is one, and
adds what the handler returns to the calling method. When it is told of a method in a context, it
has the statements queued that it has made for the method. A model whose handlers are proper is a
local plugin.

* `Model.handles`: the statements that a model is about;
* `HandlerRun`: a run of a handler for a call, with what comes of it;
* `Model.Response`: what a model does about an event, to the last detail;
* `Model.turns` and `Model.responds`: the same for several models that react one after the other;
* `HandlerRun.Stands`: the tables bear out what came of a run.
-/

namespace PointsTo

/-- The statement of a body that an event tells of, and the method. -/
def Event.stmt? : Event → Option (StmtId × MethodId)
  | .newStmt s m => some (s, m)
  | _ => none

theorem Elements.stmt_of_has {e : Elements} {s : StmtId} {st : Stmt} (h : e.Has s st) :
    (e.stmt s).stmt = st := by
  obtain ⟨x, hx, rfl⟩ := has_iff.1 h
  rw [stmt, show e.stmt? s = some x from hx]
  rfl

/-- A run of a handler for a call. -/
structure HandlerRun where
  handler : Handler
  call : StmtId
  site : SiteId
  /-- The method that makes the call. -/
  container : MethodId
  /-- The tables that the handler finds. -/
  tables : Elements

namespace HandlerRun

/-- The statements that the handler returns, and the tables that it leaves. -/
def answer (i : HandlerRun) : List Stmt × Elements := (i.handler i.site).run i.tables

/-- The names of these statements in the calling method, to which they are added. -/
def generated (i : HandlerRun) : List StmtId :=
  ((addSynthetic i.container i.answer.1).run i.answer.2).1

/-- The tables after they were added. -/
def left (i : HandlerRun) : Elements := ((addSynthetic i.container i.answer.1).run i.answer.2).2

/-- The tables after the run of a handler, if there is one. -/
def after (e : Elements) (i : Option HandlerRun) : Elements := i.elim e left

/-- The call, and the method that makes it. -/
def origin (i : HandlerRun) : StmtId × MethodId := (i.call, i.container)

/-- What the model puts on record. -/
def entry (i : HandlerRun) : ModelledCall := ⟨i.call, i.container, i.generated⟩

/-- The handler is the one that the model has for the call, and the tables `e` have the statements
that it returned, in the calling method. -/
structure Stands (m : Model) (e : Elements) (i : HandlerRun) : Prop where
  ready : i.tables.Ready i.site
  evolves : i.tables.Evolves e
  call : ∃ lhs, i.tables.Has i.call (.call i.site lhs)
  kind_ne : (i.tables.site i.site).kind ≠ .dynamic
  handler : m.handlers.find? (i.tables.site i.site).target = some i.handler
  has : List.Forall₂ e.Has i.generated i.answer.1
  home : ∀ id ∈ i.generated, id.method = i.container

theorem Stands.mono {m : Model} {e e₁ : Elements} {i : HandlerRun} (h : i.Stands m e)
    (he : e.Evolves e₁) : i.Stands m e₁ :=
  { h with
    evolves := h.evolves.trans he
    has := h.has.imp fun _ _ hst => he.develops.grows.has hst }

end HandlerRun

namespace Model

variable {m : Model} {e e₁ : Elements} {s : StmtId} {c : MethodId} {x : Event}
  {calls : List ModelledCall}

/-- All handlers keep to the calling method. -/
def Proper (m : Model) : Prop := ∀ method h, m.handlers.find? method = some h → h.Proper

/-- Whether a statement is a call, other than a dynamic one, of a method with a handler. -/
def handles (m : Model) (e : Elements) (s : StmtId) : Bool :=
  match (e.stmt s).stmt with
  | .call site _ => (e.site site).kind ≠ .dynamic && m.handlers.contains (e.site site).target
  | .alloc _ _ | .assign _ _ | .load _ _ _ | .store _ _ _ => false

/-- Statements do not change. -/
theorem handles_of_grows (h : e.Grows e₁) (hsound : e.Sound) {st : Stmt} (hs : e.Has s st) :
    m.handles e₁ s = m.handles e s := by
  unfold handles
  rw [Elements.stmt_of_has (h.has hs), Elements.stmt_of_has hs]
  cases st with
  | alloc | assign | load | store => rfl
  | call site lhs =>
    obtain ⟨t, -, ht, -⟩ := hsound.owned s site lhs hs
    have hsite := h.site ht
    simp only [hsite.kind_eq, hsite.target_eq]

theorem filter_handles {told : List (StmtId × MethodId)} (h : e.Evolves e₁) (hlocal : e.Local)
    (hsound : e.Sound) (htold : ∀ z ∈ told, (Event.newStmt z.1 z.2).Fits e) :
    (told.filter fun z => m.handles e₁ z.1) = told.filter fun z => m.handles e z.1 := by
  apply List.filter_congr
  intro z hz
  obtain ⟨-, st, hst⟩ := hlocal.exists_has (htold z hz).2
  rw [handles_of_grows h.develops.grows hsound hst]

/-- What was generated is in the methods that make the calls. -/
def Home (calls : List ModelledCall) : Prop :=
  ∀ y ∈ calls, ∀ id ∈ y.generated, id.method = y.container

/-- The statements that a model queues in reaction to an event. -/
def queues (calls : List ModelledCall) : Event → List (CtxMethod × StmtId)
  | .newCtxMethod x => (generatedIn calls x.method).map (x, ·)
  | _ => []

/-- Statements are generated for the method that they are queued for. -/
theorem mem_queues (hcalls : Home calls) {z : CtxMethod × StmtId} (hz : z ∈ queues calls x) :
    x = .newCtxMethod z.1 ∧ z.2.method = z.1.method := by
  cases x with
  | newCtxMethod k =>
    obtain ⟨id, hid, rfl⟩ := List.mem_map.1 hz
    obtain ⟨y, hy, hgen⟩ := List.mem_flatMap.1 hid
    obtain ⟨hy, hk⟩ := List.mem_filter.1 hy
    exact ⟨rfl, (hcalls y hy id hgen).trans (of_decide_eq_true hk)⟩
  | _ => cases hz

/-! ### Runs of handlers -/

/-- The handler that a model runs when it is told of an event. -/
def handlerRun? (m : Model) (e : Elements) : Event → Option HandlerRun
  | .newStmt s c =>
    match (e.stmt s).stmt with
    | .call site _ => (m.handler? e site).map fun h => ⟨h, s, site, c, e⟩
    | _ => none
  | _ => none

/-- A statement is modelled by the handler that is run for it, and by nothing else. -/
theorem run_modelStmt (m : Model) (s : StmtId) (c : MethodId) (calls : List ModelledCall)
    (e : Elements) :
    (m.modelStmt s c calls).run e =
      (calls ++ (m.handlerRun? e (.newStmt s c)).toList.map HandlerRun.entry,
        HandlerRun.after e (m.handlerRun? e (.newStmt s c))) := by
  have hnone : (Script.done calls).run e =
      (calls ++ (none : Option HandlerRun).toList.map HandlerRun.entry,
        HandlerRun.after e none) := by
    simp [Script.run, HandlerRun.after]
  simp only [modelStmt, handlerRun?, Script.elements, Bind.bind, Script.bind, Script.run]
  cases (e.stmt s).stmt with
  | alloc | assign | load | store => exact hnone
  | call site lhs =>
    dsimp only
    cases m.handler? e site with
    | none => exact hnone
    | some h => exact (Script.run_bind _ _ e).trans (Script.run_bind _ _ _)

theorem handlerRun?_eq_some {i : HandlerRun} (h : m.handlerRun? e (.newStmt s c) = some i) :
    ∃ site lhs k, (e.stmt s).stmt = .call site lhs ∧ m.handler? e site = some k ∧
      i = ⟨k, s, site, c, e⟩ := by
  rw [handlerRun?] at h
  cases hst : (e.stmt s).stmt with
  | call site lhs =>
    rw [hst] at h
    obtain ⟨k, hk, rfl⟩ := Option.map_eq_some_iff.1 h
    exact ⟨site, lhs, k, rfl, hk, rfl⟩
  | _ =>
    rw [hst] at h
    cases h

theorem handler?_eq_some_iff {site : SiteId} {h : Handler} :
    m.handler? e site = some h ↔
      (e.site site).kind ≠ .dynamic ∧ m.handlers.find? (e.site site).target = some h := by
  simp only [handler?]
  split <;> simp_all

/-- The statements for which a handler is run are those that the model is about. -/
theorem isSome_handlerRun? (m : Model) (e : Elements) (s : StmtId) (c : MethodId) :
    (m.handlerRun? e (.newStmt s c)).isSome = m.handles e s := by
  rw [handlerRun?, handles]
  cases (e.stmt s).stmt with
  | alloc | assign | load | store => rfl
  | call site lhs =>
    simp only [← Table.isSome_find?]
    by_cases hkind : (e.site site).kind = .dynamic <;> simp [handler?, hkind]

/-- What comes of the handler that a model runs when it is told of an event. -/
structure Deals (m : Model) (x : Event) (e : Elements) (i : Option HandlerRun) : Prop where
  /-- One is run if the event tells of a statement that the model is about. -/
  origin : i.toList.map HandlerRun.origin = x.stmt?.toList.filter fun z => m.handles e z.1
  stands : ∀ y ∈ i, y.Stands m e

theorem Deals.mono {i : Option HandlerRun} (h : m.Deals x e i) (he : e.Evolves e₁)
    (hlocal : e.Local) (hsound : e.Sound) (hx : x.Fits e) : m.Deals x e₁ i := by
  refine ⟨?_, fun y hy => (h.stands y hy).mono he⟩
  rw [h.origin, filter_handles he hlocal hsound]
  intro z hz
  cases x with
  | newStmt s c =>
    rw [List.mem_singleton.1 hz]
    exact hx
  | _ => cases hz

/-- Nothing is run for a method whose statements are not told of. -/
theorem Deals.filter_eq_nil {i : Option HandlerRun} (h : m.Deals x e i)
    (hx : ∀ s, x ≠ .newStmt s c) : (i.toList.filter fun y => y.container = c) = [] := by
  apply List.filter_eq_nil_iff.2
  intro y hy hc
  have horg := List.mem_map_of_mem (f := HandlerRun.origin) hy
  rw [h.origin] at horg
  have hmem := (List.mem_filter.1 horg).1
  cases x with
  | newStmt s c' =>
    obtain ⟨rfl, rfl⟩ := Prod.mk.inj (List.mem_singleton.1 hmem)
    exact hx _ (congrArg _ (of_decide_eq_true hc))
  | _ => cases hmem

theorem Deals.unhandled (hs : m.handles e s = false) : m.Deals (.newStmt s c) e none :=
  ⟨by simp [Event.stmt?, hs], by rintro _ ⟨⟩⟩

/-- A proper handler extends the calling method. -/
theorem evolves_after (hm : m.Proper) (hlocal : e.Local) (hsound : e.Sound) (hx : x.Fits e) :
    e.Evolves (HandlerRun.after e (m.handlerRun? e x)) ∧
      m.Deals x (HandlerRun.after e (m.handlerRun? e x)) (m.handlerRun? e x) := by
  cases x with
  | newStmt s c =>
    have hsome := m.isSome_handlerRun? e s c
    cases hi : m.handlerRun? e (.newStmt s c) with
    | none =>
      rw [hi] at hsome
      exact ⟨.refl, .unhandled hsome.symm⟩
    | some i =>
      rw [hi] at hsome
      obtain ⟨rfl, st, hst⟩ := hlocal.exists_has hx.2
      obtain ⟨site, lhs, h, hcall, hh, rfl⟩ := handlerRun?_eq_some hi
      obtain rfl := (Elements.stmt_of_has hst).symm.trans hcall
      obtain ⟨hkind, hfind⟩ := handler?_eq_some_iff.1 hh
      -- the call site is there, and it is one of the method
      obtain ⟨hsite, -⟩ := hlocal.has hst
      obtain ⟨t, -, ht, -⟩ := hsound.owned s site lhs hst
      have hready : e.Ready site := ⟨hlocal, hsound, hsite.symm ▸ hx.1, t, ht⟩
      have hmade := hm _ h hfind e site hready
      rw [hsite] at hmade
      obtain ⟨hadded, hids, hhas⟩ :=
        run_addSynthetic (hmade.evolves.isBuilt hx.1) hmade.localTo hmade.admits
      have hevolves := hmade.evolves.trans hadded
      refine ⟨hevolves, ?_, ?_⟩
      · have hkeep := (handles_of_grows hevolves.develops.grows hsound hst).trans hsome.symm
        have hpos : [(s, s.method)].filter (fun z => m.handles _ z.1) = _ :=
          List.filter_cons_of_pos (a := (s, s.method)) hkeep
        exact hpos.symm
      · rintro _ ⟨⟩
        exact ⟨hready, hevolves, ⟨lhs, hst⟩, hkind, hfind, hhas, hids⟩
  | _ => exact ⟨.refl, rfl, by rintro _ ⟨⟩⟩

/-- The handlers that models run one after the other when they are told of an event, and the
tables after that. -/
def turns (x : Event) : List Model → Elements → List (Option HandlerRun) × Elements
  | [], e => ([], e)
  | m :: ms, e =>
    let i := m.handlerRun? e x
    let r := turns x ms (HandlerRun.after e i)
    (i :: r.1, r.2)

theorem length_turns (x : Event) (ms : List Model) (e : Elements) :
    (turns x ms e).1.length = ms.length := by
  induction ms generalizing e with
  | nil => rfl
  | cons m ms ih => exact congrArg (· + 1) (ih _)

/-- What comes of the handlers that models run one after the other. -/
theorem turns_deal {ms : List Model} (hms : ∀ m ∈ ms, m.Proper) (hlocal : e.Local)
    (hsound : e.Sound) (hx : x.Fits e) :
    e.Evolves (turns x ms e).2 ∧
      List.Forall₂ (fun m i => m.Deals x (turns x ms e).2 i) ms (turns x ms e).1 := by
  induction ms generalizing e with
  | nil => exact ⟨.refl, .nil⟩
  | cons m ms ih =>
    obtain ⟨hm, hms⟩ := List.forall_mem_cons.1 hms
    obtain ⟨hfirst, hdeals⟩ := evolves_after hm hlocal hsound hx
    -- the other models find what the first one has left
    have hlocal₁ := hfirst.local hlocal
    have hsound₁ := hfirst.develops.sound hsound
    have hx₁ := hx.mono hfirst hlocal
    obtain ⟨hrest, hall⟩ := ih hms hlocal₁ hsound₁ hx₁
    exact ⟨hfirst.trans hrest, .cons (hdeals.mono hrest hlocal₁ hsound₁ hx₁) hall⟩

/-! ### One model -/

/-- What a model does in reaction to an event. -/
structure Response (m : Model) (x : Event) (calls : List ModelledCall) (s : Stage)
    (r : List ModelledCall × Stage) : Prop where
  elements_eq : r.2.analysis.elements =
    HandlerRun.after s.analysis.elements (m.handlerRun? s.analysis.elements x)
  record_eq : r.1 = calls ++ (m.handlerRun? s.analysis.elements x).toList.map HandlerRun.entry
  ignored_eq : x ≠ .start → r.2.ignored = s.ignored
  pending_eq : r.2.pending = s.pending ++ queues calls x

/-- A reaction in which no handler is run and nothing is queued. -/
theorem Response.quiet {s s₁ : Stage} (hx : m.handlerRun? s.analysis.elements x = none)
    (hqueues : queues calls x = []) (helements : s₁.analysis.elements = s.analysis.elements)
    (hignored : x ≠ .start → s₁.ignored = s.ignored) (hpending : s₁.pending = s.pending) :
    m.Response x calls s (calls, s₁) := by
  refine ⟨?_, ?_, hignored, ?_⟩
  · rw [hx]
    exact helements
  · rw [hx]
    exact (List.append_nil _).symm
  · rw [hqueues, List.append_nil]
    exact hpending

theorem Response.heeds {s : Stage} {r : List ModelledCall × Stage} (h : m.Response x calls s r)
    (hm : m.Proper) (hcalls : Home calls) (hlocal : s.analysis.elements.Local)
    (hsound : s.analysis.elements.Sound) (hx : x.Fits s.analysis.elements) : s.Heeds x r.2 where
  elements := h.elements_eq.symm ▸ (evolves_after hm hlocal hsound hx).1
  ignored_eq := h.ignored_eq
  pending := ⟨_, h.pending_eq, fun _ hz => mem_queues hcalls hz⟩

theorem Response.home {s : Stage} {r : List ModelledCall × Stage} (h : m.Response x calls s r)
    (hm : m.Proper) (hcalls : Home calls) (hlocal : s.analysis.elements.Local)
    (hsound : s.analysis.elements.Sound) (hx : x.Fits s.analysis.elements) : Home r.1 := by
  rw [h.record_eq]
  refine List.forall_mem_append.2 ⟨hcalls, fun y hy => ?_⟩
  obtain ⟨i, hi, rfl⟩ := List.mem_map.1 hy
  exact ((evolves_after hm hlocal hsound hx).2.stands i (Option.mem_toList.1 hi)).home

theorem run_ignoreAll {α : Type} (ms : List MethodId) (next : Hook α) (s : Stage) :
    ∃ ignored, (ignoreAll ms next).run s = next.run { s with ignored } := by
  induction ms generalizing s with
  | nil => exact ⟨s.ignored, rfl⟩
  | cons k ms ih => exact ih { s with ignored := s.ignored.insert k }

theorem react_response (m : Model) (x : Event) (calls : List ModelledCall) (s : Stage) :
    m.Response x calls s ((m.react x calls).run s) := by
  cases x with
  | start =>
    obtain ⟨ignored, hrun⟩ := run_ignoreAll m.handlers.keys (.done calls) s
    rw [react, hrun]
    exact .quiet rfl rfl rfl (fun hne => absurd rfl hne) rfl
  | newStmt k c =>
    rw [react, Hook.run_ofScript, run_modelStmt]
    exact ⟨rfl, rfl, fun _ => rfl, (List.append_nil _).symm⟩
  | newCtxMethod k => exact ⟨rfl, (List.append_nil _).symm, fun _ => rfl, rfl⟩
  | finish | newMethod | newPointsTo | newCallEdge | unresolvedCall =>
    exact .quiet rfl rfl rfl (fun _ => rfl) rfl

theorem run_notes {α : Type} (lines : List String) (next : Hook α) (s : Stage) :
    (lines.foldr .note next).run s = next.run { s with journal := s.journal ++ lines } := by
  induction lines generalizing s with
  | nil => simp
  | cons line lines ih =>
    refine (ih { s with journal := s.journal ++ [line] }).trans ?_
    simp only [List.append_assoc, List.singleton_append]

/-- The plugin of a model, with a report to the journal at the end or without. -/
def pluginWith (reports : Bool) (m : Model) : Plugin where
  Memory := List ModelledCall
  memory := []
  react := if reports then m.reportingPlugin.react else m.plugin.react

theorem pluginWith_false (m : Model) : m.pluginWith false = m.plugin := rfl

theorem pluginWith_true (m : Model) : m.pluginWith true = m.reportingPlugin := rfl

/-- A report does nothing but take notes. -/
theorem pluginWith_response (reports : Bool) (m : Model) (x : Event) (calls : List ModelledCall)
    (s : Stage) : m.Response x calls s (((m.pluginWith reports).react x calls).run s) := by
  have hplain := m.react_response x calls s
  cases reports with
  | false => exact hplain
  | true =>
    cases x with
    | finish =>
      have hrun : ((m.pluginWith true).react .finish calls).run s =
          (calls, { s with journal := s.journal ++ m.report s.analysis.elements calls }) :=
        run_notes _ _ s
      rw [hrun]
      exact .quiet rfl rfl rfl (fun _ => rfl) rfl
    | _ => exact hplain

/-- A model is a local plugin. -/
theorem local_pluginWith (reports : Bool) (hm : m.Proper) : (m.pluginWith reports).Local Home where
  initial := List.forall_mem_nil _
  react x calls s hcalls hlocal hsound hx := by
    have hresponse := m.pluginWith_response reports x calls s
    exact ⟨hresponse.home hm hcalls hlocal hsound hx,
      hresponse.heeds hm hcalls hlocal hsound hx⟩

/-! ### Several models -/

section

variable {reports : Bool}

/-- Models that react one after the other. -/
abbrev ensemble (reports : Bool) (ms : List Model) : Plugin :=
  .sequence (ms.map (pluginWith reports))

/-- What models have on record, in their order. -/
def ledger : (ms : List Model) → (ensemble reports ms).Memory →
    List (Model × List ModelledCall)
  | [], _ => []
  | m :: ms, a => (m, a.1) :: ledger ms a.2

/-- Before the run there is nothing on record. -/
theorem ledger_initial (reports : Bool) (ms : List Model) :
    ledger ms (ensemble reports ms).memory = ms.map (·, []) := by
  induction ms with
  | nil => rfl
  | cons m ms ih => exact congrArg ((m, []) :: ·) ih

/-- Models that react one after the other do what each of them does. -/
theorem responds (ms : List Model) (x : Event) (a : (ensemble reports ms).Memory) (s : Stage) :
    let r := ((ensemble reports ms).react x a).run s
    r.2.analysis.elements = (turns x ms s.analysis.elements).2 ∧
      ledger ms r.1 = List.zipWith (fun z i => (z.1, z.2 ++ i.toList.map HandlerRun.entry))
        (ledger ms a) (turns x ms s.analysis.elements).1 ∧
      r.2.pending = s.pending ++ (ledger ms a).flatMap fun z => queues z.2 x := by
  induction ms generalizing s with
  | nil => exact ⟨rfl, rfl, (List.append_nil _).symm⟩
  | cons m ms ih =>
    have hfirst := m.pluginWith_response reports x a.1 s
    obtain ⟨helements, hledger, hpending⟩ := ih a.2 (((m.pluginWith reports).react x a.1).run s).2
    rw [hfirst.elements_eq] at helements hledger
    have hrun : ((ensemble reports (m :: ms)).react x a).run s = _ := Plugin.run_pair x a s
    rw [hrun]
    refine ⟨helements, ?_, ?_⟩
    · exact congrArg₂ (fun calls l => (m, calls) :: l) hfirst.record_eq hledger
    · refine hpending.trans ((congrArg (· ++ _) hfirst.pending_eq).trans ?_)
      exact List.append_assoc _ _ _

end

end Model

end PointsTo
