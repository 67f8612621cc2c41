import PointsTo.Proofs.Chronicle
import PointsTo.Proofs.Elements.Positions
import PointsTo.Proofs.Plugin.Modelling
import PointsTo.Proofs.Solver.Prompt

/-!
# Models model each call once, and in every context

Models are told of the statements of a method when it becomes reachable for the first time, and of
each of its contexts after that. So the handlers are run once for each call that they are about,
however many contexts there are, and what they made is complete when it is queued for a context.

* `Solver.tally`: the handlers that models run in the course of a run;
* `Solver.tablesAfter`: the tables after a task, if models do nothing but run these handlers;
* `Solver.Modelled`: what holds in every moment of a run;
* `Solver.solve_models`: what models have done when a run ends.
-/

namespace PointsTo

/-- The statements for a method in a context, among statements for several. -/
def injectedIn (x : CtxMethod) (stmts : List (CtxMethod × StmtId)) : List StmtId :=
  (stmts.filter fun z => z.1 = x).map Prod.snd

theorem injectedIn_append (k : CtxMethod) (l₁ l₂ : List (CtxMethod × StmtId)) :
    injectedIn k (l₁ ++ l₂) = injectedIn k l₁ ++ injectedIn k l₂ := by
  simp [injectedIn]

namespace Model

/-- The handlers that models have run. -/
abbrev Runs := List (Model × List HandlerRun)

/-- The statements that handlers have made for a method. -/
def Runs.madeFor (l : Runs) (m : MethodId) : List StmtId :=
  l.flatMap fun z => (z.2.filter fun i => i.container = m).flatMap HandlerRun.generated

/-- What models have on record when these handlers were run. -/
def Runs.record (l : Runs) : List (Model × List ModelledCall) :=
  l.map fun z => (z.1, z.2.map HandlerRun.entry)

/-- Each model runs a further handler, or none. -/
def Runs.extend (l : Runs) (next : List (Option HandlerRun)) : Runs :=
  List.zipWith (fun z i => (z.1, z.2 ++ i.toList)) l next

namespace Runs

variable {l : Runs} {next : List (Option HandlerRun)} {x : Event} {e : Elements} {k : CtxMethod}

theorem record_extend (l : Runs) (next : List (Option HandlerRun)) :
    (l.extend next).record =
      List.zipWith (fun z i => (z.1, z.2 ++ i.toList.map HandlerRun.entry)) l.record next := by
  rw [record, extend, record, List.map_zipWith, List.zipWith_map_left]
  simp only [List.map_append]

theorem generatedIn_entries (l : List HandlerRun) (m : MethodId) :
    generatedIn (l.map HandlerRun.entry) m =
      (l.filter fun i => i.container = m).flatMap HandlerRun.generated := by
  rw [generatedIn, List.filter_map, List.flatMap_map]
  rfl

/-- Models queue what they have made for the method. -/
theorem injectedIn_queues (l : Runs) (k : CtxMethod) :
    injectedIn k (l.record.flatMap fun z => queues z.2 (.newCtxMethod k)) =
      l.madeFor k.method := by
  induction l with
  | nil => rfl
  | cons z l ih =>
    have hz : injectedIn k (queues (z.2.map HandlerRun.entry) (.newCtxMethod k)) =
        generatedIn (z.2.map HandlerRun.entry) k.method := by
      simp [injectedIn, queues, List.filter_map, Function.comp_def]
    refine (injectedIn_append k _ _).trans (congrArg₂ (· ++ ·) ?_ ih)
    exact hz.trans (generatedIn_entries z.2 k.method)

/-- Nothing is queued for other methods and contexts. -/
theorem injectedIn_queues_of_ne (l : Runs) (hx : x ≠ .newCtxMethod k) :
    injectedIn k (l.record.flatMap fun z => queues z.2 x) = [] := by
  cases x with
  | newCtxMethod k' =>
    have hne : k' ≠ k := fun h => hx (h ▸ rfl)
    simp [injectedIn, queues, List.filter_flatMap, List.filter_map, Function.comp_def, hne]
  | _ => simp [injectedIn, queues]

/-- What a model has run after an event is what it had run before, and what it runs then. -/
theorem exists_of_mem_extend (h : List.Forall₂ (fun m i => m.Deals x e i) (l.map Prod.fst) next)
    {z : Model × List HandlerRun} (hz : z ∈ l.extend next) :
    ∃ z₀ ∈ l, ∃ i, z₀.1.Deals x e i ∧ z = (z₀.1, z₀.2 ++ i.toList) := by
  rw [List.forall₂_map_left_iff] at h
  rw [extend, ← List.map_uncurry_zip_eq_zipWith, List.mem_map] at hz
  obtain ⟨⟨z₀, i⟩, hmem, rfl⟩ := hz
  exact ⟨z₀, (List.of_mem_zip hmem).1, i, List.forall₂_zip h hmem, rfl⟩

/-- A method whose statements are not told of gets no further statements. -/
theorem madeFor_extend (h : List.Forall₂ (fun m i => m.Deals x e i) (l.map Prod.fst) next)
    {c : MethodId} (hx : ∀ s, x ≠ .newStmt s c) : (l.extend next).madeFor c = l.madeFor c := by
  rw [List.forall₂_map_left_iff] at h
  induction h with
  | nil => rfl
  | @cons z i l next hz _ ih =>
    refine congrArg₂ (· ++ ·) ?_ ih
    show ((z.2 ++ i.toList).filter _).flatMap _ = _
    rw [List.filter_append, hz.filter_eq_nil hx, List.append_nil]

end Runs

end Model

/-- The statements that were told of. -/
def toldStmts (log : List Announcement) : List (StmtId × MethodId) :=
  (log.map Announcement.event).filterMap Event.stmt?

/-- The methods in contexts that were told of. -/
def toldContexts (log : List Announcement) : List CtxMethod :=
  (log.map Announcement.event).filterMap Event.ctxMethod?

theorem toldStmts_concat (log : List Announcement) (a : Announcement) :
    toldStmts (log ++ [a]) = toldStmts log ++ a.event.stmt?.toList := by
  cases ha : a.event.stmt? <;> simp [toldStmts, ha]

theorem mem_toldContexts_concat {log : List Announcement} {a : Announcement} {k : CtxMethod} :
    k ∈ toldContexts (log ++ [a]) ↔ k ∈ toldContexts log ∨ a.event = .newCtxMethod k := by
  cases ha : a.event <;> simp [toldContexts, ha, Event.ctxMethod?, eq_comm]

theorem tale_announce (log : List Announcement) {x : Event} (hx : x.isNews = true)
    (rest : List Task) :
    tale log (.announce x :: rest) =
      (log.map Announcement.event).filter Event.isNews ++ x :: pendingNews rest := by
  simp [tale, pendingNews, Task.event?, hx]

/-- At the end, what is told is what was announced. -/
theorem tale_nil (log : List Announcement) :
    tale log [] = (log.map Announcement.event).filter Event.isNews := List.append_nil _

theorem toldContexts_eq (log : List Announcement) :
    toldContexts log =
      ((log.map Announcement.event).filter Event.isNews).filterMap Event.ctxMethod? := by
  refine (Core.filterMap_news (fun x hx => ?_) _).symm
  cases x with
  | newCtxMethod => cases hx
  | _ => rfl

theorem filter_toldStmts (log : List Announcement) (m : MethodId) :
    ((toldStmts log).filter fun w => w.2 = m) =
      (((log.map Announcement.event).filter Event.isNews).filter
        (Event.isAbout m)).filterMap Event.stmt? := by
  rw [toldStmts, List.filter_filterMap, List.filterMap_filter, List.filterMap_filter]
  apply List.filterMap_congr
  intro x _
  cases x <;> simp [Event.stmt?, Event.isNews, Event.isAbout, Option.filter]

theorem filterMap_stmt?_account (m : MethodId) (body : List StmtId) (contexts : List CtxMethod) :
    (account m body contexts).filterMap Event.stmt? = body.map (·, m) := by
  simp [account, List.filterMap_cons, List.filterMap_map, Function.comp_def, Event.stmt?]

theorem mem_tale_of_toldStmts {log : List Announcement} {z : StmtId × MethodId}
    (hz : z ∈ toldStmts log) (tasks : List Task) : .newStmt z.1 z.2 ∈ tale log tasks := by
  obtain ⟨x, hx, heq⟩ := List.mem_filterMap.1 hz
  cases x with
  | newStmt s m =>
    cases heq
    exact List.mem_append_left _ (List.mem_filter.2 ⟨hx, rfl⟩)
  | _ => cases heq

theorem mem_toldContexts {log : List Announcement} {k : CtxMethod} :
    k ∈ toldContexts log ↔ .newCtxMethod k ∈ (log.map Announcement.event).filter Event.isNews := by
  constructor
  · intro hk
    obtain ⟨x, hx, heq⟩ := List.mem_filterMap.1 hk
    cases x with
    | newCtxMethod k' =>
      cases heq
      exact List.mem_filter.2 ⟨hx, rfl⟩
    | _ => cases heq
  · intro hk
    exact List.mem_filterMap.2 ⟨_, (List.mem_filter.1 hk).1, rfl⟩

namespace Solver

variable {reports : Bool} {models : List Model}
  {I : (Model.ensemble reports models).Memory → Prop}
  {s s' : Solver (Model.ensemble reports models)} {t : Task} {ts rest tasks : List Task}
  {past : List (Solver (Model.ensemble reports models) × Task)} {fuel : Nat}

/-! ### The handlers that are run -/

/-- The handlers that models run at a moment of a run, in the order of the models. -/
def handlerRuns (y : Solver (Model.ensemble reports models) × Task) : List (Option HandlerRun) :=
  match y.2 with
  | .announce x => (Model.turns x models y.1.core.elements).1
  | _ => []

/-- The tables after a task, which the solver carries out without its models. When an event is
announced, they are left by the handlers that are run, one after the other. -/
def tablesAfter (y : Solver (Model.ensemble reports models) × Task) : Elements :=
  match y.2 with
  | .announce x => (Model.turns x models y.1.core.elements).2
  | t => (y.1.core.perform t).1.elements

/-- The models, each with the handlers that it has run in the moments `past`. -/
def tally (past : List (Solver (Model.ensemble reports models) × Task)) : Model.Runs :=
  models.zipIdx.map fun z => (z.1, past.filterMap fun y => (handlerRuns y)[z.2]?.join)

theorem elements_perform (y : Solver (Model.ensemble reports models) × Task) :
    (y.1.perform y.2).1.core.elements = tablesAfter y := by
  obtain ⟨s, t⟩ := y
  cases t with
  | announce x => exact (Model.responds models x s.memory s.stage).1
  | _ => rfl

theorem map_fst_tally (past : List (Solver (Model.ensemble reports models) × Task)) :
    (tally past).map Prod.fst = models := by
  rw [tally, List.map_map]
  exact List.zipIdx_map_fst 0 models

theorem tally_nil :
    tally ([] : List (Solver (Model.ensemble reports models) × Task)) = models.map (·, []) := by
  conv => rhs; rw [← List.zipIdx_map_fst 0 models, List.map_map]
  rfl

theorem tally_concat_of_ne (past : List (Solver (Model.ensemble reports models) × Task))
    (s : Solver (Model.ensemble reports models)) (ht : ∀ x, t ≠ .announce x) :
    tally (past ++ [(s, t)]) = tally past := by
  have hnone : handlerRuns (s, t) = [] := by
    cases t with
    | announce x => exact absurd rfl (ht x)
    | _ => rfl
  simp [tally, List.filterMap_append, hnone]

theorem tally_concat_announce (past : List (Solver (Model.ensemble reports models) × Task))
    (s : Solver (Model.ensemble reports models)) (x : Event) :
    tally (past ++ [(s, .announce x)]) =
      (tally past).extend (Model.turns x models s.core.elements).1 := by
  have hlength := Model.length_turns x models s.core.elements
  refine List.ext_getElem (by simp [tally, Model.Runs.extend, hlength]) fun k hk hk' => ?_
  have hk₁ : k < (Model.turns x models s.core.elements).1.length := by
    simpa [tally, hlength] using hk
  have hruns : handlerRuns (s, .announce x) = (Model.turns x models s.core.elements).1 := rfl
  simp only [tally, Model.Runs.extend, List.getElem_map, List.getElem_zipIdx, List.getElem_zipWith,
    List.filterMap_append, Nat.zero_add, Prod.mk.injEq, true_and]
  congr 1
  cases hi : (Model.turns x models s.core.elements).1[k] <;>
    simp [hruns, List.getElem?_eq_getElem hk₁, hi]

/-! ### Every moment of a run -/

/-- What holds in every moment of a run with models. -/
structure Modelled (I : (Model.ensemble reports models).Memory → Prop)
    (s : Solver (Model.ensemble reports models)) (tasks : List Task)
    (past : List (Solver (Model.ensemble reports models) × Task)) : Prop where
  regular : s.Regular I tasks
  evolves : ∃ p, ({ program := p } : Elements).Evolves s.core.elements
  chronicle : s.core.Chronicle (tale (heard past) tasks)
  records : Model.ledger models s.memory = (tally past).record
  /-- Each model has run its handlers for the calls that it is about, among the statements told
  of. -/
  runs : ∀ z ∈ tally past, z.2.map HandlerRun.origin =
    (toldStmts (heard past)).filter fun w => z.1.handles s.core.elements w.1
  stands : ∀ z ∈ tally past, ∀ i ∈ z.2, i.Stands z.1 s.core.elements
  /-- What handlers have made for a method was queued for each of its contexts that was told of. -/
  queued : ∀ x, injectedIn x ((heard past).flatMap Announcement.queued) =
    if x ∈ toldContexts (heard past) then (tally past).madeFor x.method else []

namespace Modelled

theorem fits (h : Modelled I s tasks past) :
    ∀ z ∈ toldStmts (heard past), (Event.newStmt z.1 z.2).Fits s.core.elements :=
  fun _ hz => h.chronicle.fits (mem_tale_of_toldStmts hz tasks)

/-- The statements that are told of do not change. -/
theorem filter_handles (h : Modelled I s (t :: rest) past) {e : Elements}
    (he : s.core.elements.Evolves e) (m : Model) :
    ((toldStmts (heard past)).filter fun w => m.handles e w.1) =
      (toldStmts (heard past)).filter fun w => m.handles s.core.elements w.1 :=
  Model.filter_handles he h.regular.timely.tables h.regular.wellFormed.sound h.fits

/-- Moves of the solver do not concern models. -/
theorem move (h : Modelled I s (t :: rest) past) (ht : ∀ x, t ≠ .announce x)
    (hregular : s'.Regular I (ts ++ rest))
    (hchronicle : s'.core.Chronicle (tale (heard past) (ts ++ rest)))
    (hmemory : s'.memory = s.memory) (he : s.core.elements.Evolves s'.core.elements) :
    Modelled I s' (ts ++ rest) (past ++ [(s, t)]) := by
  have hheard : heard (past ++ [(s, t)]) = heard past := by
    rw [heard_concat, s.announced_eq_nil ht, List.append_nil]
  have htally := tally_concat_of_ne past s ht
  constructor
  case regular => exact hregular
  case evolves => exact h.evolves.imp fun p hp => hp.trans he
  case chronicle => rwa [hheard]
  case records => rw [hmemory, htally, h.records]
  case runs =>
    intro z hz
    rw [htally] at hz
    rw [hheard, h.runs z hz, h.filter_handles he]
  case stands =>
    intro z hz i hi
    rw [htally] at hz
    exact (h.stands z hz i hi).mono he
  case queued =>
    rw [hheard, htally]
    exact h.queued

/-- When a method was told of in a context, no statements of its body are left to be told. -/
theorem ne_newStmt {x : Event} (h : Modelled I s (.announce x :: rest) past) {k : CtxMethod}
    (hk : k ∈ toldContexts (heard past)) (id : StmtId) : x ≠ .newStmt id k.method := by
  rintro rfl
  exact h.chronicle.stmt_before (tale_announce _ rfl rest) (mem_toldContexts.1 hk) rfl

theorem ne_newCtxMethod {x : Event} (h : Modelled I s (.announce x :: rest) past) {k : CtxMethod}
    (hk : k ∈ toldContexts (heard past)) : x ≠ .newCtxMethod k := by
  rintro rfl
  have hfresh := h.chronicle.ctxMethod_fresh (tale_announce _ rfl rest)
  exact hfresh (List.mem_filterMap.2 ⟨_, mem_toldContexts.1 hk, rfl⟩)

/-- The handlers that were run after an announcement. -/
theorem runs_announce {x : Event} (h : Modelled I s (.announce x :: rest) past) {e : Elements}
    (he : s.core.elements.Evolves e) {z : Model × List HandlerRun}
    (hz : ∃ z₀ ∈ tally past, ∃ i, z₀.1.Deals x e i ∧ z = (z₀.1, z₀.2 ++ i.toList)) :
    (z.2.map HandlerRun.origin =
        (toldStmts (heard past) ++ x.stmt?.toList).filter fun w => z.1.handles e w.1) ∧
      ∀ i ∈ z.2, i.Stands z.1 e := by
  obtain ⟨z₀, hz₀, i, hi, rfl⟩ := hz
  constructor
  · rw [List.map_append, h.runs z₀ hz₀, hi.origin, List.filter_append, h.filter_handles he]
  · refine List.forall_mem_append.2 ⟨fun y hy => (h.stands z₀ hz₀ y hy).mono he, fun y hy => ?_⟩
    exact hi.stands y (Option.mem_toList.1 hy)

/-- What has been queued after an announcement. -/
theorem queued_announce {x : Event} (h : Modelled I s (.announce x :: rest) past) {e : Elements}
    {next : List (Option HandlerRun)}
    (hnext : List.Forall₂ (fun m i => m.Deals x e i) ((tally past).map Prod.fst) next)
    {a : Announcement} (ha : a.event = x)
    (hqueued : a.queued = (tally past).record.flatMap fun z => Model.queues z.2 x)
    (k : CtxMethod) :
    injectedIn k ((heard past ++ [a]).flatMap Announcement.queued) =
      if k ∈ toldContexts (heard past ++ [a]) then ((tally past).extend next).madeFor k.method
      else [] := by
  have hsplit : injectedIn k ((heard past ++ [a]).flatMap Announcement.queued) =
      injectedIn k ((heard past).flatMap Announcement.queued) ++ injectedIn k a.queued := by
    rw [List.flatMap_append, injectedIn_append, List.flatMap_singleton]
  rw [hsplit, h.queued, hqueued]
  have htold : k ∈ toldContexts (heard past ++ [a]) ↔
      k ∈ toldContexts (heard past) ∨ x = .newCtxMethod k := by
    rw [mem_toldContexts_concat, ha]
  by_cases hk : k ∈ toldContexts (heard past)
  · -- the context is known, and so are all statements of the method
    rw [if_pos hk, if_pos (htold.2 (.inl hk)),
      Model.Runs.injectedIn_queues_of_ne _ (h.ne_newCtxMethod hk), List.append_nil,
      Model.Runs.madeFor_extend hnext (h.ne_newStmt hk)]
  · rw [if_neg hk, List.nil_append]
    by_cases hx : x = .newCtxMethod k
    · subst hx
      rw [if_pos (htold.2 (.inr rfl)), Model.Runs.injectedIn_queues,
        Model.Runs.madeFor_extend hnext (by rintro _ ⟨⟩)]
    · rw [if_neg (by simp [htold, hk, hx]), Model.Runs.injectedIn_queues_of_ne _ hx]

theorem announce (hms : ∀ m ∈ models, m.Proper) {x : Event}
    (h : Modelled I s (.announce x :: rest) past)
    (hregular : (s.announce x).1.Regular I (ts ++ rest))
    (hchronicle : (s.announce x).1.core.Chronicle
      (tale (heard past ++ s.announced (.announce x)) (ts ++ rest))) :
    Modelled I (s.announce x).1 (ts ++ rest) (past ++ [(s, .announce x)]) := by
  have hfits := (h.regular.timely.due x List.mem_cons_self).1
  obtain ⟨helements, hledger, hpending⟩ := Model.responds models x s.memory s.stage
  obtain ⟨hevolves, hdeals⟩ := Model.turns_deal hms h.regular.timely.tables
    h.regular.wellFormed.sound hfits
  replace helements : (s.announce x).1.core.elements =
    (Model.turns x models s.core.elements).2 := helements
  rw [← helements] at hevolves hdeals
  have hnext : List.Forall₂ (fun m i => m.Deals x (s.announce x).1.core.elements i)
      ((tally past).map Prod.fst) (Model.turns x models s.core.elements).1 := by
    rwa [map_fst_tally]
  have hheard := heard_concat past s (.announce x)
  have htally := tally_concat_announce past s x
  constructor
  case regular => exact hregular
  case evolves => exact h.evolves.imp fun p hp => hp.trans hevolves
  case chronicle => rwa [hheard]
  case records =>
    rw [htally, Model.Runs.record_extend, ← h.records]
    exact hledger
  case runs =>
    intro z hz
    rw [htally] at hz
    rw [hheard, announced, toldStmts_concat]
    exact (h.runs_announce hevolves (Model.Runs.exists_of_mem_extend hnext hz)).1
  case stands =>
    intro z hz
    rw [htally] at hz
    exact (h.runs_announce hevolves (Model.Runs.exists_of_mem_extend hnext hz)).2
  case queued =>
    rw [hheard, htally]
    refine h.queued_announce hnext rfl ?_
    rw [← h.records]
    exact hpending

theorem perform (hms : ∀ m ∈ models, m.Proper) (hP : (Model.ensemble reports models).Local I)
    (h : Modelled I s (t :: rest) past) (hp : s.perform t = (s', .ok ts)) :
    Modelled I s' (ts ++ rest) (past ++ [(s, t)]) := by
  obtain ⟨hturn, -⟩ := h.regular.turn hP hp
  have hregular := h.regular.perform hP hp
  have hchronicle := h.regular.chronicle h.chronicle hturn
  cases hturn with
  | announce hs =>
    subst hs
    exact h.announce hms hregular hchronicle
  | move ht memory_eq move =>
    rw [s.announced_eq_nil ht, List.append_nil] at hchronicle
    exact h.move ht hregular hchronicle memory_eq move.evolves

theorem settle (hms : ∀ m ∈ models, m.Proper) (hP : (Model.ensemble reports models).Local I)
    (h : Modelled I s tasks past) (hs : s.settle fuel tasks = (s', .done ())) :
    Modelled I s' [] (past ++ s.moments fuel tasks) :=
  settle_moments (fun h hp => h.perform hms hP hp) h hs

end Modelled

theorem modelled_create (hP : (Model.ensemble reports models).Local I) {p : Program}
    {e : Elements} (he : ({ program := p } : Elements).Evolves e) (journal : List String)
    (entries : List MethodId) (policy : ContextPolicy) :
    Modelled I (create _ e journal entries policy .fifo) agenda [] := by
  have htally : ∀ z ∈ tally ([] : List (Solver (Model.ensemble reports models) × Task)),
      z.2 = [] := by
    simp [tally_nil]
  refine ⟨regular_create hP he journal entries policy (by decide), ⟨p, he⟩, chronicle_create ..,
    ?_, ?_, ?_, fun x => rfl⟩
  · rw [tally_nil, Model.Runs.record, List.map_map]
    exact Model.ledger_initial reports models
  · intro z hz
    rw [htally z hz]
    rfl
  · intro z hz i hi
    rw [htally z hz] at hi
    exact absurd hi List.not_mem_nil

/-! ### When a run has ended -/

/-- What models have done in the course of a run to the state `s` through the moments `past`, in
which `injected` was run for them. -/
structure Served (past : List (Solver (Model.ensemble reports models) × Task))
    (s : Solver (Model.ensemble reports models)) (injected : List (CtxMethod × StmtId)) : Prop where
  models_eq : (tally past).map Prod.fst = models
  /-- When an event is announced, the handlers on the tally are run, each of them once, and nothing
  else is done to the tables. -/
  tables : ∀ y ∈ past, (y.1.perform y.2).1.core.elements = tablesAfter y
  /-- The statements of the bodies of reachable methods are told of, each once. -/
  told : ∀ m, ((toldStmts (heard past)).filter fun w => w.2 = m) =
    if m ∈ s.core.analysis.reachableMethods ∧ m ∉ s.core.ignored then
      (s.core.elements.code m).body.map (·, m)
    else []
  body_nodup : ∀ m, (s.core.elements.code m).body.Nodup
  /-- A handler is run once for each call in the body of a reachable method that it is about, in the
  order of the body, and for no other statement. -/
  runs : ∀ z ∈ tally past, ∀ m,
    (z.2.filter fun i => i.container = m).map HandlerRun.call =
      if m ∈ s.core.analysis.reachableMethods ∧ m ∉ s.core.ignored then
        (s.core.elements.code m).body.filter (z.1.handles s.core.elements)
      else []
  /-- The statements that were made are those that the handler has returned. -/
  stands : ∀ z ∈ tally past, ∀ i ∈ z.2, i.Stands z.1 s.core.elements
  records : Model.ledger models s.memory = (tally past).record
  /-- What handlers have made for a method is run in each of its contexts, once and in order. -/
  injected : ∀ x, injectedIn x injected =
    if x ∈ s.core.analysis.calls.methods ∧ x.method ∉ s.core.ignored then
      (tally past).madeFor x.method
    else []

namespace Modelled

/-- The methods that were told of in a context are the reachable ones that are not ignored. -/
theorem told_iff (h : Modelled I s [] past) (x : CtxMethod) :
    x ∈ toldContexts (heard past) ↔
      x ∈ s.core.analysis.calls.methods ∧ x.method ∉ s.core.ignored := by
  have hctx := h.chronicle.ctxMethods
  rw [tale_nil, ← toldContexts_eq] at hctx
  rw [hctx, List.mem_filter, decide_eq_true_eq]
  rfl

/-- The statements that were told of are those of the bodies. -/
theorem toldStmts_eq (h : Modelled I s [] past) (m : MethodId) :
    ((toldStmts (heard past)).filter fun w => w.2 = m) =
      if m ∈ s.core.analysis.reachableMethods ∧ m ∉ s.core.ignored then
        (s.core.elements.code m).body.map (·, m)
      else [] := by
  have hseen : m ∈ s.core.seen ↔
      m ∈ s.core.analysis.reachableMethods ∧ m ∉ s.core.ignored := by
    rw [h.chronicle.seen, Analysis.mem_reachableMethods, and_comm]
    rfl
  have hmethods := h.chronicle.methods m
  rw [tale_nil] at hmethods
  rw [filter_toldStmts, hmethods]
  simp only [hseen]
  split
  · exact filterMap_stmt?_account ..
  · rfl

theorem runs_of_end (h : Modelled I s [] past) {z : Model × List HandlerRun} (hz : z ∈ tally past)
    (m : MethodId) :
    (z.2.filter fun i => i.container = m).map HandlerRun.call =
      if m ∈ s.core.analysis.reachableMethods ∧ m ∉ s.core.ignored then
        (s.core.elements.code m).body.filter (z.1.handles s.core.elements)
      else [] := by
  calc (z.2.filter fun i => i.container = m).map HandlerRun.call
      = ((z.2.map HandlerRun.origin).filter fun w => w.2 = m).map Prod.fst := by
        rw [List.filter_map, List.map_map]
        rfl
    _ = (((toldStmts (heard past)).filter fun w => w.2 = m).filter
          fun w => z.1.handles s.core.elements w.1).map Prod.fst := by
        rw [h.runs z hz, List.filter_comm]
    _ = _ := by
        rw [h.toldStmts_eq]
        split
        · simp [List.filter_map, Function.comp_def]
        · rfl

end Modelled

/-- **Models model each call once, in every context.** When a run with models ends, and all handlers
keep to the calling method, then each handler was run once for each call that it is about, and what
it made was run once in each context of the calling method. -/
theorem solve_models (reports : Bool) (models : List Model) (hms : ∀ m ∈ models, m.Proper)
    {p : Program} {e : Elements} (he : ({ program := p } : Elements).Evolves e)
    (journal : List String) (entries : List MethodId) (policy : ContextPolicy) {fuel : Nat}
    {s : Solver (Model.ensemble reports models)}
    (h : (create (Model.ensemble reports models) e journal entries policy .fifo).solve fuel =
      (s, .done ())) :
    Served ((create (Model.ensemble reports models) e journal entries policy .fifo).moments fuel
      agenda) s ((create (Model.ensemble reports models) e journal entries policy .fifo).injected
      fuel agenda) := by
  obtain ⟨I, hP⟩ : ∃ I, (Model.ensemble reports models).Local I := by
    apply Plugin.Local.sequence
    intro q hq
    obtain ⟨m, hm, rfl⟩ := List.mem_map.1 hq
    exact ⟨_, Model.local_pluginWith reports (hms m hm)⟩
  have hstart := modelled_create hP he journal entries policy
  have hend := hstart.settle hms hP h
  rw [List.nil_append] at hend
  have hprompt : Prompt agenda := by
    simp [Prompt, agenda, Task.injected?]
  constructor
  case models_eq => exact map_fst_tally _
  case tables => exact fun y _ => elements_perform y
  case told => exact hend.toldStmts_eq
  case body_nodup =>
    obtain ⟨p, hevolves⟩ := hend.evolves
    exact fun m => (hevolves.develops.counted m).nodup_body
  case runs => exact fun z hz => hend.runs_of_end hz
  case stands => exact hend.stands
  case records => exact hend.records
  case injected =>
    intro x
    rw [injected_eq hP hstart.regular hprompt h, ← heard_moments]
    have hqueued := hend.queued x
    simp only [hend.told_iff] at hqueued
    exact hqueued

end Solver

/-- A small program: `main` calls `wrap` twice, which calls two library methods. The last method is
not called. -/
def Program.library : Program where
  classes := [{ name := "A" }]
  methods :=
    [{ owner := ⟨0⟩, name := "main", isStatic := true
       body := some
        { locals := [⟨"x", .cls ⟨0⟩⟩]
          instructions :=
            [.assign (.local ⟨0⟩) (.new ⟨0⟩), .invoke ⟨0xb8, ⟨1⟩, none, [.local ⟨0⟩]⟩,
             .invoke ⟨0xb8, ⟨1⟩, none, [.local ⟨0⟩]⟩] } },
     { owner := ⟨0⟩, name := "wrap", params := [.cls ⟨0⟩], isStatic := true
       body := some
        { paramLocals := [⟨0⟩], locals := [⟨"z", .cls ⟨0⟩⟩, ⟨"u", .cls ⟨0⟩⟩, ⟨"v", .cls ⟨0⟩⟩]
          instructions :=
            [.assign (.local ⟨1⟩) (.invoke ⟨0xb8, ⟨3⟩, none, []⟩),
             .assign (.local ⟨2⟩) (.invoke ⟨0xb8, ⟨2⟩, none, [.local ⟨0⟩]⟩)] } },
     { owner := ⟨0⟩, name := "same", params := [.cls ⟨0⟩], result := some (.cls ⟨0⟩)
       isStatic := true },
     { owner := ⟨0⟩, name := "make", result := some (.cls ⟨0⟩), isStatic := true },
     { owner := ⟨0⟩, name := "dead", isStatic := true
       body := some
        { locals := [⟨"w", .cls ⟨0⟩⟩]
          instructions := [.assign (.local ⟨0⟩) (.invoke ⟨0xb8, ⟨3⟩, none, []⟩)] } }]

/-- Models of the library methods: one hands its argument back, the other makes an object. -/
def Model.library : List Model :=
  [{ name := "same"
     handlers := (∅ : Table MethodId Handler).insert ⟨2⟩
      (Extension.templateHandler [.assign (some .result) (some (.arg 0))]) },
   { name := "make"
     handlers := (∅ : Table MethodId Handler).insert ⟨3⟩
      (Extension.templateHandler [.temp "o" "tmp" (.cls ⟨0⟩), .alloc (some (.bound "o")) (.cls ⟨0⟩),
        .assign (some .result) (some (.bound "o"))]) }]

def Solver.library : Solver (Model.ensemble true Model.library) :=
  .create _ { program := .library } [] [⟨0⟩] (.callSite 1) .fifo

theorem Model.proper_library : ∀ m ∈ library, m.Proper := by
  intro m hm method h hh
  simp only [library, List.mem_cons, List.not_mem_nil, or_false] at hm
  rcases hm with rfl | rfl <;> rw [Table.find?_insert] at hh <;> split at hh <;> cases hh
  · exact Extension.proper_templateHandler _
  · exact Extension.proper_templateHandler _

/-- Each model has run one handler. The three statements are run in both contexts of `wrap`. -/
theorem Solver.solve_models_library :
    ∃ s, library.solve 200 = (s, .done ()) ∧
      Served (library.moments 200 agenda) s (library.injected 200 agenda) ∧
      (tally (library.moments 200 agenda)).map (fun z => z.2.map HandlerRun.call) =
        [[⟨⟨1⟩, 1⟩], [⟨⟨1⟩, 0⟩]] ∧
      (library.injected 200 agenda).length = 6 := by
  have hdone : (library.solve 200).2 = .done () := by decide +kernel
  have hruns : (tally (library.moments 200 agenda)).map (fun z => z.2.map HandlerRun.call) =
      [[⟨⟨1⟩, 1⟩], [⟨⟨1⟩, 0⟩]] := by decide +kernel
  have hinjected : (library.injected 200 agenda).length = 6 := by decide +kernel
  generalize hr : library.solve 200 = r at hdone
  obtain ⟨s, v⟩ := r
  obtain rfl : v = .done () := hdone
  have hserved :=
    solve_models true Model.library Model.proper_library .refl [] [⟨0⟩] (.callSite 1) hr
  exact ⟨s, rfl, hserved, hruns, hinjected⟩

end PointsTo
