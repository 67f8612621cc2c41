import PointsTo.Proofs.Solver.Injected
import PointsTo.Proofs.Soundness

/-!
# Injected statements reach the fixpoint

When a run of the solver ends without error, every statement that a plugin has queued in reaction to
any event is obeyed by the result, in the context that it was queued for: it does not matter whether
it was there before the objects that it is applied to, came in between, or came last.

* `Solver.injections`: the statements that plugins queue in the course of a run;
* `Core.Obeys`: what a statement asks of the result;
* `Solver.solve_obeys`: a result obeys the statements that were queued.
-/

namespace PointsTo

namespace Core

/-- What a call asks of the result, in a context. Calls are bound along all recorded edges of a call
site on behalf of the call that owns it. -/
structure ObeysCall (c : Core) (ctx : Context) (s : StmtId) (id : SiteId) (lhs : Option VarId) :
    Prop where
  bound : (c.elements.site id).kind = .static ∨ (c.elements.site id).kind = .special →
    c.edgeAt ⟨ctx, id⟩ none (c.elements.site id).target ∈ c.analysis.calls.edges
  /-- A dispatched call on an object reaches the implementation for its type. Unless this is
  ignored, its receiver refers to the object. -/
  dispatched : (c.elements.site id).kind.isDispatched = true →
    ∀ r, (c.elements.site id).receiver = some r → ∀ o ∈ c.pointsTo (.var ctx r),
      ∃ callee, c.program.dispatch? (c.analysis.heap.typeOf o)
          (c.program.subsignature (c.elements.site id).target) = some callee ∧
        c.edgeAt ⟨ctx, id⟩ (some o) callee ∈ c.analysis.calls.edges ∧
        (callee ∉ c.ignored → c.IsBuilt callee ∧
          ∀ this, (c.elements.code callee).this = some this →
            o ∈ c.pointsTo (.var (c.policy.calleeContext ctx id (some o)) this))
  tied : (c.elements.site id).call = some s → ∀ e ∈ c.analysis.calls.edges, e.site.site = id →
    e.callee.method ∉ c.ignored → c.IsBuilt e.callee.method ∧
      (∀ a v, (some a, some v) ∈
          (c.elements.site id).args.zip (c.elements.code e.callee.method).params →
        c.analysis.Flows (.var e.site.ctx a) (.var e.callee.ctx v)) ∧
      ∀ r ∈ (c.elements.code e.callee.method).returns, ∀ v, lhs = some v →
        c.analysis.Flows (.var e.callee.ctx r) (.var e.site.ctx v)

/-- What the statement `st`, named `s`, asks of the result when it is run in `m`. -/
def Obeys (c : Core) (m : CtxMethod) (s : StmtId) : Stmt → Prop
  | .alloc lhs _ => ⟨s, c.policy.heapContext m.ctx⟩ ∈ c.pointsTo (.var m.ctx lhs)
  | .assign lhs rhs => c.analysis.Flows (.var m.ctx rhs) (.var m.ctx lhs)
  | .load lhs base f =>
    ∀ o ∈ c.pointsTo (.var m.ctx base), c.analysis.Flows (.field o f) (.var m.ctx lhs)
  | .store base f rhs =>
    ∀ o ∈ c.pointsTo (.var m.ctx base), c.analysis.Flows (.var m.ctx rhs) (.field o f)
  | .call id lhs => c.ObeysCall m.ctx s id lhs

variable {c : Core} {m : CtxMethod} {s : StmtId} {st : Stmt} {o : Obj} {ctx : Context} {f : Fact}

/-! ### When nothing is left to be done -/

theorem Due.holds (hf : c.Due f) (hidle : c.worklist.items = []) : c.Holds f :=
  Promises.holds (.inl hf) hidle

theorem Expects.mem_edges {e : CtxEdge} (h : c.Expects [] e) (hidle : c.worklist.items = []) :
    e ∈ c.analysis.calls.edges := by
  obtain ⟨m, he⟩ := h
  exact List.mem_map.2 ⟨(m, e), he.holds hidle, rfl⟩

theorem Tended.served (htended : c.Tended []) {v : VarId} (hs : s ∈ c.watchers.get (.var ctx v))
    (hst : c.elements.Has s st) (ho : o ∈ c.pointsTo (.var ctx v)) : c.Served [] ctx o st :=
  (htended.attended ctx v o ho s hs st hst).resolve_right fun ⟨_, ht, _⟩ => List.not_mem_nil ht

section

variable (hwf : c.WellFormed) (htended : c.Tended []) (hidle : c.worklist.items = [])

include hwf hidle

theorem WellFormed.flows {a b : Pointer} (h : c.Holds (.flow a b)) : c.analysis.Flows a b :=
  fun o ho => (hwf.closed a b o h ho).holds hidle

include htended

theorem Tended.obeysCall {id : SiteId} {lhs : Option VarId} (hst : c.elements.Has s (.call id lhs))
    (hi : c.Installed [] m s (.call id lhs)) : c.ObeysCall m.ctx s id lhs where
  bound hk := (hi.1 hk).mem_edges hidle
  dispatched hk r hr o ho := by
    obtain ⟨callee, hdispatch, hedge, hthis⟩ :=
      htended.served (hi.2 r hk hr) hst ho hk
    refine ⟨callee, hdispatch, hedge.mem_edges hidle, fun hno => ?_⟩
    obtain ⟨hbuilt, hthis⟩ := hthis hno
    exact ⟨hbuilt, fun this ht => (hthis this ht).holds hidle⟩
  tied howner e he hid hno := by
    subst hid
    obtain ⟨⟨m', e'⟩, hmem, rfl⟩ := List.mem_map.1 he
    -- the call owns its site, so the results are bound to its own variable
    obtain ⟨t, -, ht, -⟩ := hwf.admits (.edge m' e') (.inl hmem)
    rw [Elements.site_of_site? ht] at howner
    have hresult := Elements.result?_of_owner ht howner hst
    obtain ⟨hbuilt, htied⟩ :=
      ((htended.tied m' e' hmem).resolve_right List.not_mem_nil).resolve_left hno
    refine ⟨hbuilt, fun a v h => hwf.flows hidle (htied _ (.arg h)), fun r hr v hv => ?_⟩
    exact hwf.flows hidle (htied _ (.result hr (hresult.trans hv)))

/-- A statement that was run is obeyed when nothing is left to be done. -/
theorem Undertakes.obeys (h : c.Undertakes [] m s st) : c.Obeys m s st := by
  obtain ⟨hst, hi⟩ := h
  replace hi := hi.resolve_right List.not_mem_nil
  cases st with
  | alloc lhs ty => exact Due.holds (f := .points _ _) hi hidle
  | assign lhs rhs => exact hwf.flows hidle hi
  | load lhs base x =>
    exact fun o ho => hwf.flows hidle (htended.served hi hst ho)
  | store base x rhs =>
    exact fun o ho => hwf.flows hidle (htended.served hi hst ho)
  | call id lhs => exact htended.obeysCall hwf hidle hst hi

end

end Core

/-! ### Along a run -/

namespace Solver

variable {P : Plugin} {s s' : Solver P} {t : Task} {ts rest agenda : List Task} {fuel : Nat}

/-- What holds in every moment of a run that has not failed, when `tasks` are still to be done. -/
structure Orderly (s : Solver P) (tasks : List Task) : Prop where
  wellFormed : s.core.WellFormed
  sane : ∀ t ∈ tasks, t.Sane s.core
  tended : s.core.Tended tasks
  drains : s.core.Drains tasks

/-- With plugins, announcements are tasks like others. -/
theorem perform_leads (hwf : s.core.WellFormed) (ht : t.Sane s.core)
    (h : s.perform t = (s', .ok ts)) : Core.Leads t s.core s'.core ts := by
  rcases s.perform_cases t with ⟨e, rfl, heq⟩ | ⟨-, heq⟩
  · cases heq.symm.trans h
    exact .of_edits (s.announce_edits e).of_quiet nofun nofun nofun nofun
  · obtain ⟨hcore, hok⟩ := Prod.mk.inj (heq.symm.trans h)
    rw [← hcore]
    exact Core.perform_leads hwf ht (Prod.ext rfl hok)

theorem Orderly.perform (h : s.Orderly (t :: rest)) (hp : s.perform t = (s', .ok ts)) :
    s'.Orderly (ts ++ rest) := by
  have hleads := perform_leads h.wellFormed (h.sane t List.mem_cons_self) hp
  obtain ⟨hwf, hsane⟩ := perform_sane h.wellFormed h.sane
  rw [hp] at hwf hsane
  refine ⟨hwf, hsane ts rfl, h.tended.step h.wellFormed hwf hleads, ?_⟩
  rcases s.perform_cases t with ⟨e, rfl, -⟩ | ⟨-, heq⟩
  · exact h.drains.later nofun nofun
  · obtain ⟨hcore, hok⟩ := Prod.mk.inj (heq.symm.trans hp)
    rw [← hcore]
    exact h.drains.perform (Prod.ext rfl hok)

/-- What a task and the tasks after it do, when an agenda is carried out to the end. -/
theorem settle_cons (h : s.settle fuel (t :: rest) = (s', .done ())) :
    ∃ n s₁ ts, fuel = n + 1 ∧ s.perform t = (s₁, .ok ts) ∧
      s₁.settle n (ts ++ rest) = (s', .done ()) := by
  cases fuel with
  | zero => cases h
  | succ n =>
    unfold settle at h
    split at h <;> rename_i hp
    · exact ⟨n, _, _, rfl, hp, h⟩
    · cases h

theorem Orderly.settle (h : s.Orderly agenda) (hs : s.settle fuel agenda = (s', .done ())) :
    s'.Orderly [] ∧ ∀ m id st, s.core.Undertakes agenda m id st →
      s'.core.Undertakes [] m id st := by
  induction fuel generalizing s agenda with
  | zero =>
    cases agenda with
    | nil =>
      cases hs
      exact ⟨h, fun _ _ _ => id⟩
    | cons t rest => cases hs
  | succ fuel ih =>
    cases agenda with
    | nil =>
      cases hs
      exact ⟨h, fun _ _ _ => id⟩
    | cons t rest =>
      obtain ⟨n, s₁, ts, hn, hp, hrest⟩ := settle_cons hs
      cases hn
      have h₁ := h.perform hp
      obtain ⟨hend, hkeep⟩ := ih h₁ hrest
      refine ⟨hend, fun m id st hu => hkeep m id st ?_⟩
      exact hu.step h.wellFormed h₁.wellFormed
        (perform_leads h.wellFormed (h.sane t List.mem_cons_self) hp)

/-! ### What plugins queue -/

/-- The statements that the plugin queues when a task is carried out. -/
def queue (s : Solver P) : Task → List (CtxMethod × StmtId)
  | .announce e => ((P.react e s.memory).run
      { analysis := s.core.analysis
        ignored := s.core.ignored
        journal := s.core.journal }).2.pending
  | _ => []

/-- The statements that plugins queue while an agenda is carried out, each with the method and the
context it is queued for, and with what the tables say about it when the plugin has reacted. -/
def injections : Nat → List Task → Solver P → List (CtxMethod × StmtId × Stmt)
  | fuel + 1, t :: rest, s =>
    match s.perform t with
    | (s', .ok ts) =>
      ((s.queue t).filterMap fun x =>
        (s'.core.elements.stmt? x.2).map fun st => (x.1, x.2, st.stmt)) ++
        injections fuel (ts ++ rest) s'
    | (_, .error _) => []
  | _, _, _ => []

/-- What is queued is to be run. -/
theorem undertakes_of_queue {m : CtxMethod} {id : StmtId} {st : Stmt} (hq : (m, id) ∈ s.queue t)
    (hp : s.perform t = (s', .ok ts)) (hst : s'.core.elements.Has id st) :
    s'.core.Undertakes (ts ++ rest) m id st := by
  cases t with
  | announce e =>
    cases hp
    refine ⟨hst, .inr (List.mem_append_left _ ?_)⟩
    exact List.mem_map_of_mem (f := fun x : CtxMethod × StmtId => Task.exec x.1 x.2 true) hq
  | _ => cases hq

theorem Orderly.undertakes (h : s.Orderly agenda) (hs : s.settle fuel agenda = (s', .done ()))
    {m : CtxMethod} {id : StmtId} {st : Stmt} (hx : (m, id, st) ∈ s.injections fuel agenda) :
    s'.core.Undertakes [] m id st := by
  induction fuel generalizing s agenda with
  | zero => cases hx
  | succ fuel ih =>
    cases agenda with
    | nil => cases hx
    | cons t rest =>
      obtain ⟨n, s₁, ts, hn, hp, hrest⟩ := settle_cons hs
      cases hn
      have h₁ := h.perform hp
      simp only [injections, hp] at hx
      -- it is queued by this task, or by a later one
      rcases List.mem_append.1 hx with hx | hx
      · obtain ⟨⟨m', id'⟩, hq, hst⟩ := List.mem_filterMap.1 hx
        obtain ⟨y, hy, heq⟩ := Option.map_eq_some_iff.1 hst
        cases heq
        refine (h₁.settle hrest).2 _ _ _ (undertakes_of_queue hq hp ?_)
        exact Option.map_eq_some_iff.2 ⟨y, hy, rfl⟩
      · exact ih h₁ hrest hx

theorem orderly_create (P : Plugin) {e : Elements} (he : e.Sound) (journal : List String)
    (entries : List MethodId) (policy : ContextPolicy) (order : WorklistOrder) :
    (create P e journal entries policy order).Orderly Solver.agenda where
  wellFormed := wellFormed_create P he journal entries policy order
  sane := by simp [Solver.agenda, Task.Sane]
  tended := ⟨fun _ _ o ho => absurd ho (OrderedSet.not_mem_empty o),
    fun _ _ he => absurd he List.not_mem_nil⟩
  drains := .inl ⟨[.begin, .drain, .announce .finish], [.statistics], rfl, by simp⟩

/-- When a run ends without error, its result obeys every statement that a plugin has queued in
reaction to any event. The tables may have been worked on before, and the plugin may have methods
ignored at any time. -/
theorem solve_obeys (P : Plugin) (p : Program) (prepare : Script Unit) (journal : List String)
    (entries : List MethodId) (policy : ContextPolicy) (order : WorklistOrder) {fuel : Nat}
    {s : Solver P}
    (h : (create P (prepare.run { program := p }).2 journal entries policy order).solve fuel =
      (s, .done ())) :
    ∀ m id st, (m, id, st) ∈ (create P (prepare.run { program := p }).2 journal entries policy
      order).injections fuel Solver.agenda → s.core.Obeys m id st := by
  intro m id st hx
  have hsound := (prepare.run_develops { program := p }).sound (Elements.sound_empty p)
  have hstart := orderly_create P hsound journal entries policy order
  have hend := (hstart.settle h).1
  exact (hstart.undertakes h hx).obeys hend.wellFormed hend.tended hend.drains.idle

end Solver

/-- A plugin that, when the first objects have reached a variable, queues a call on a copy of the
variable and only then the copy. At the end it queues an allocation. -/
def Plugin.guest : Plugin where
  Memory := Bool
  memory := false
  react
    | .newPointsTo ctx v _, false => do
      let copy ← Script.request (.temp v.method "guest" (.cls ⟨0⟩))
      let call ← Script.request (.addCall v.method .virtual ⟨2⟩ (some copy) [] none true)
      let assign ← Script.request (.addStmt v.method (.assign copy v) true)
      Hook.inject ⟨ctx, v.method⟩ [call, assign] (.done true)
    | .finish, told => do
      let late ← Script.request (.temp ⟨0⟩ "late" (.cls ⟨0⟩))
      let alloc ← Script.request (.addStmt ⟨0⟩ (.alloc late (.cls ⟨0⟩)) true)
      Hook.inject ⟨[], ⟨0⟩⟩ [alloc] (.done told)
    | _, told => .done told

def Solver.guest : Solver .guest :=
  .create .guest (Script.run (.done ()) { program := Problem.visitor.program }).2 [] [⟨0⟩]
    .insensitive .lifo

theorem Solver.solve_obeys_guest :
    ∃ s, guest.solve 200 = (s, .done ()) ∧
      s.core.Obeys ⟨[], ⟨0⟩⟩ ⟨⟨0⟩, 2⟩ (.call ⟨⟨0⟩, 1⟩ none) ∧
      s.core.Obeys ⟨[], ⟨0⟩⟩ ⟨⟨0⟩, 3⟩ (.assign ⟨⟨0⟩, 1⟩ ⟨⟨0⟩, 0⟩) ∧
      s.core.Obeys ⟨[], ⟨0⟩⟩ ⟨⟨0⟩, 4⟩ (.alloc ⟨⟨0⟩, 2⟩ (.cls ⟨0⟩)) := by
  have hdone : (guest.solve 200).2 = .done () := by decide +kernel
  generalize hr : guest.solve 200 = r at hdone
  obtain ⟨s, v⟩ := r
  obtain rfl : v = .done () := hdone
  have hobeys :=
    solve_obeys .guest Problem.visitor.program (.done ()) [] [⟨0⟩] .insensitive .lifo hr
  exact ⟨s, rfl, hobeys _ _ _ (by decide +kernel), hobeys _ _ _ (by decide +kernel),
    hobeys _ _ _ (by decide +kernel)⟩

end PointsTo
