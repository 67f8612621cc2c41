import PointsTo.Proofs.Solver.Queue

/-!
# Soundness

A run that ends without error has taken up everything on the worklist, and every promise is
fulfilled. If moreover all methods of the call graph were run, then what was found is exactly what
the rules give, and the rules lead to no error.

* `Core.Complete.holds_of_derives`: then every derived fact holds;
* `Core.Underway`: what holds of the state and the agenda in every moment of a run;
* `Solver.solve_underway`: it holds at the end, when nothing is left to be done;
* `Solver.holds_iff_derives_of_fifo`: a worklist that is a queue finds exactly the derived facts;
* `Solver.solve_closed`: the result is closed under the rules, read off from the result alone.
-/

namespace PointsTo

namespace Core

variable {q : Problem} {c c' : Core} {t : Task} {ts rest tasks : List Task} {f : Fact}

/-! ### When nothing is left to be done -/

theorem Promises.holds (h : c.Promises [] f) (hidle : c.worklist.items = []) : c.Holds f := by
  rcases h with (h | ⟨i, hi, -⟩) | ⟨m, e, he, -⟩
  · exact h
  · rw [hidle] at hi
    exact absurd hi List.not_mem_nil
  · exact absurd he List.not_mem_nil

theorem Complete.reacted (h : Complete q c []) {m : CtxMethod} {s : StmtId} {v : VarId} {o : Obj}
    (hs : s ∈ (q.program.code m.method).body) (hv : q.program.base? s = some v)
    (ho : c.Holds (.points (.var m.ctx v) o)) : c.Reacted q [] m s o := by
  have hm : v.method = m.method := (Program.base?_method hv).trans (Program.mem_body_iff.1 hs).1
  have happlied := h.applied m.ctx v o ho s (Program.mem_dependents_iff.2 ⟨hm ▸ hs, hv⟩)
  rw [hm] at happlied
  exact happlied.elim id fun ⟨t, ht, _⟩ => absurd ht List.not_mem_nil

section

variable (h : Complete q c []) (hidle : c.worklist.items = [])
  (hran : ∀ m, c.Holds (.reach m) → c.Ran q [] m)

include h hidle hran

/-- Every derived fact holds. -/
theorem Complete.holds_of_derives (hf : q.Derives f) : c.Holds f := by
  induction hf with
  | entry hm =>
    rcases h.entered with ⟨-, hb⟩ | hent
    · exact absurd hb List.not_mem_nil
    · exact (hent _ hm).resolve_right List.not_mem_nil
  | effect hm hs hf ihm =>
    have hexec := ((hran _ ihm).2 _ hs).resolve_right List.not_mem_nil
    exact (hexec _ hf).holds hidle
  | reaction hm hs hv ho hf ihm iho => exact ((h.reacted hs hv iho).1 _ hf).holds hidle
  | callee he ih => exact (h.bound _ _ ih).1
  | binding he hf ih =>
    have hbound := (h.bound _ _ ih).2.resolve_right List.not_mem_nil
    exact (hbound _ hf).holds hidle
  | subset hab ho ihab iho => exact Promises.holds (.inl (h.closed _ _ _ ihab iho)) hidle

/-- The rules lead to no error. -/
theorem Complete.not_faulty : ¬ q.Faulty := by
  have hholds := fun f => h.holds_of_derives hidle hran (f := f)
  rintro (⟨hm, herr⟩ | ⟨hm, hs, hv, ho, hst, hk, hnone⟩)
  · have hok := h.lowered _ (hran _ (hholds _ hm)).1
    cases hok.symm.trans herr
  · obtain ⟨callee, hcallee⟩ := (h.reacted hs hv (hholds _ ho)).2 _ _ hst hk
    cases hnone.symm.trans hcallee

end

/-! ### Along a run -/

/-- The worklist will be drained: the last task but the statistics sees to it, or nothing is left on
it. -/
def Drains (c : Core) (tasks : List Task) : Prop :=
  (∃ l₁ l₂, tasks = l₁ ++ .drain :: l₂ ∧ ∀ t ∈ l₂, t = .statistics) ∨
    c.worklist.items = [] ∧ ∀ t ∈ tasks, t = .statistics

/-- Whatever other tasks do, the worklist will be drained after them. -/
theorem Drains.later (h : c.Drains (t :: rest)) (hdrain : t ≠ .drain) (hreport : t ≠ .statistics) :
    c'.Drains (ts ++ rest) := by
  rcases h with ⟨l₁, l₂, heq, hl₂⟩ | ⟨-, hall⟩
  · rcases List.cons_eq_append_iff.1 heq with ⟨rfl, heq⟩ | ⟨l, rfl, rfl⟩
    · cases heq
      exact absurd rfl hdrain
    · exact .inl ⟨ts ++ l, l₂, by simp, hl₂⟩
  · exact absurd (hall t List.mem_cons_self) hreport

theorem Drains.perform (h : c.Drains (t :: rest)) (hok : c.perform t = (c', .ok ts)) :
    c'.Drains (ts ++ rest) := by
  by_cases hdrain : t = .drain
  · subst hdrain
    rcases h with ⟨l₁, l₂, heq, hl₂⟩ | ⟨-, hall⟩
    · replace hok : c.drain = (c', .ok ts) := hok
      unfold drain at hok
      rcases List.cons_eq_append_iff.1 heq with ⟨rfl, heq⟩ | ⟨l, rfl, rfl⟩
      · cases heq
        split at hok <;> rename_i hitems <;> cases hok
        · exact .inr ⟨List.isEmpty_iff.1 hitems, hl₂⟩
        · exact .inl ⟨[.next], rest, rfl, hl₂⟩
      · exact .inl ⟨ts ++ l, l₂, by simp, hl₂⟩
    · cases hall _ List.mem_cons_self
  · by_cases hreport : t = .statistics
    · subst hreport
      cases hok
      rcases h with ⟨l₁, l₂, heq, hl₂⟩ | ⟨hidle, hall⟩
      · rcases List.cons_eq_append_iff.1 heq with ⟨-, heq⟩ | ⟨l, -, rfl⟩
        · cases heq
        · exact .inl ⟨l, l₂, rfl, hl₂⟩
      · exact .inr ⟨hidle, fun t' ht' => hall t' (List.mem_cons_of_mem _ ht')⟩
    · exact h.later hdrain hreport

theorem Drains.idle (h : c.Drains []) : c.worklist.items = [] := by
  rcases h with ⟨l₁, l₂, heq, -⟩ | ⟨hidle, -⟩
  · simp at heq
  · exact hidle

/-- What holds in every moment of a run that has not failed, when `tasks` are still to be done. -/
structure Underway (q : Problem) (c : Core) (tasks : List Task) : Prop where
  grounded : c.Grounded q
  justified : ∀ t ∈ tasks, t.Justified q c
  complete : Complete q c tasks
  drains : c.Drains tasks

/-- Every task keeps a run underway, unless it fails. -/
theorem Underway.perform (h : Underway q c (t :: rest)) (hok : c.perform t = (c', .ok ts)) :
    Underway q c' (ts ++ rest) := by
  have ht := h.justified t List.mem_cons_self
  obtain ⟨hgrounded, hjustified⟩ := h.grounded.step h.justified hok
  exact ⟨hgrounded, hjustified, h.complete.perform h.grounded ht hok, h.drains.perform hok⟩

theorem Underway.idle (h : Underway q c []) : c.worklist.items = [] := h.drains.idle

/-- At the end exactly the derived facts hold, if all methods of the call graph were run. -/
theorem Underway.holds_iff_derives (h : Underway q c [])
    (hran : ∀ m, c.Holds (.reach m) → c.Ran q [] m) : c.Holds f ↔ q.Derives f :=
  ⟨fun hf => h.grounded.derives f (.inl hf), h.complete.holds_of_derives h.idle hran⟩

end Core

namespace Problem

variable (q : Problem) (order : WorklistOrder)

/-- Nothing was found and nothing was lowered yet, so there is nothing to keep. -/
theorem complete_solver : (q.solver order).core.Complete q Solver.agenda := by
  have hno : ∀ {f}, ¬ (q.solver order).core.Holds f := fun hf => q.not_due_solver order _ (.inl hf)
  exact
    { lowered := fun m hm => absurd hm (Elements.not_isBuilt_fresh q.program q.entries m)
      entered := .inl ⟨rfl, List.mem_cons_self⟩
      closed := fun _ _ _ hab => absurd hab hno
      applied := fun _ _ _ ho => absurd ho hno
      bound := fun _ _ he => absurd he hno
      ran := fun _ hm => absurd hm hno
      sites := fun _ _ hs => absurd hs hno
      execs := fun _ _ _ hs => by simp [Solver.agenda] at hs
      ordered := ⟨trivial, trivial, trivial, trivial, trivial, trivial⟩ }

theorem underway_solver : (q.solver order).core.Underway q Solver.agenda where
  grounded := q.grounded_solver order
  justified t ht := by
    simp only [Solver.agenda, List.mem_cons, List.not_mem_nil, or_false] at ht
    rcases ht with rfl | rfl | rfl | rfl | rfl <;> trivial
  complete := q.complete_solver order
  drains := .inl ⟨[.begin, .drain, .announce .finish], [.statistics], rfl, by simp⟩

theorem inOrder_solver : (q.solver .fifo).core.InOrder q Solver.agenda := by
  have hno : ∀ {f}, ¬ (q.solver .fifo).core.Holds f := fun hf => q.not_due_solver .fifo _ (.inl hf)
  exact ⟨rfl, ⟨trivial, trivial, trivial, trivial, trivial, trivial⟩, fun _ _ hab => absurd hab hno,
    fun _ _ he => absurd he hno⟩

end Problem

namespace Solver

variable {q : Problem} {s : Solver .idle} {order : WorklistOrder} {fuel : Nat} {f : Fact}

/-- At the end of a run all promises are fulfilled. -/
theorem solve_underway (h : (q.solver order).solve fuel = (s, .done ())) :
    s.core.Underway q [] := by
  have hinv := settle_invariant (s := q.solver order) fuel (I := Core.Underway q)
    (E := fun _ => True) (fun c t rest ts hc hok => hc.perform (Prod.ext rfl hok))
    (fun _ _ _ _ _ _ => trivial) (q.underway_solver order)
  rw [show (q.solver order).settle fuel agenda = (s, .done ()) from h] at hinv
  exact hinv

/-- With a queue as worklist, all methods of the call graph were run. -/
theorem ran_of_fifo (h : (q.solver .fifo).solve fuel = (s, .done ())) {m : CtxMethod}
    (hm : s.core.Holds (.reach m)) : s.core.Ran q [] m := by
  have hinv := settle_invariant (s := q.solver .fifo) fuel
    (I := fun c ts => c.Underway q ts ∧ c.InOrder q ts) (E := fun _ => True) ?_
    (fun _ _ _ _ _ _ => trivial) ⟨q.underway_solver .fifo, q.inOrder_solver⟩
  · rw [show (q.solver .fifo).settle fuel agenda = (s, .done ()) from h] at hinv
    exact hinv.2.ran hinv.1.complete hm
  · rintro c t rest ts ⟨hc, horder⟩ hok
    have hok : c.perform t = ((c.perform t).1, .ok ts) := Prod.ext rfl hok
    exact ⟨hc.perform hok, horder.perform hc.complete hc.grounded
      (hc.justified t List.mem_cons_self) hok⟩

/-- With a queue as worklist, exactly the derived facts hold at the end. -/
theorem holds_iff_derives_of_fifo (h : (q.solver .fifo).solve fuel = (s, .done ())) :
    s.core.Holds f ↔ q.Derives f :=
  (solve_underway h).holds_iff_derives fun _ => ran_of_fifo h

theorem not_faulty_of_fifo (h : (q.solver .fifo).solve fuel = (s, .done ())) : ¬ q.Faulty := by
  have hend := solve_underway h
  exact hend.complete.not_faulty hend.idle fun _ => ran_of_fifo h

end Solver

/-! ### The result -/

namespace Analysis

/-- What the pointer `x` refers to, `y` refers to. -/
def Flows (a : Analysis) (x y : Pointer) : Prop :=
  ∀ o ∈ a.heap.pointsTo x, o ∈ a.heap.pointsTo y

/-- The statement `st`, named `s`, is in the body of a reachable method. -/
def Runs (a : Analysis) (m : CtxMethod) (s : StmtId) (st : Stmt) : Prop :=
  m ∈ a.calls.methods ∧ s ∈ (a.elements.code m.method).body ∧
    (a.elements.stmt? s).map PlacedStmt.stmt = some st

/-- The result of an analysis is closed under its rules. The tables are those of the result; for
reachable methods they hold what lowering makes of the program. -/
structure Closed (q : Problem) (a : Analysis) : Prop where
  code : ∀ m ∈ a.calls.methods, a.elements.code m.method = q.program.code m.method ∧
    (q.program.lowering m.method).1 = .ok ()
  entry : ∀ m ∈ q.entries, ⟨[], m⟩ ∈ a.calls.methods
  alloc : ∀ m s lhs ty, a.Runs m s (.alloc lhs ty) →
    ⟨s, q.policy.heapContext m.ctx⟩ ∈ a.heap.pointsTo (.var m.ctx lhs)
  assign : ∀ m s lhs rhs, a.Runs m s (.assign lhs rhs) →
    a.Flows (.var m.ctx rhs) (.var m.ctx lhs)
  load : ∀ m s lhs base f, a.Runs m s (.load lhs base f) →
    ∀ o ∈ a.heap.pointsTo (.var m.ctx base), a.Flows (.field o f) (.var m.ctx lhs)
  store : ∀ m s base f rhs, a.Runs m s (.store base f rhs) →
    ∀ o ∈ a.heap.pointsTo (.var m.ctx base), a.Flows (.var m.ctx rhs) (.field o f)
  site : ∀ m s id lhs, a.Runs m s (.call id lhs) → ⟨m.ctx, id⟩ ∈ a.calls.sitesIn m
  call : ∀ m s id lhs, a.Runs m s (.call id lhs) →
    (a.elements.site id).kind = .static ∨ (a.elements.site id).kind = .special →
    (m, ⟨(a.elements.site id).kind, ⟨m.ctx, id⟩,
      ⟨q.policy.calleeContext m.ctx id none, (a.elements.site id).target⟩⟩) ∈ a.calls.calls
  /-- A call on an object has a target, whose receiver refers to the object. -/
  dispatch : ∀ m s id lhs r, a.Runs m s (.call id lhs) →
    (a.elements.site id).kind.isDispatched = true → (a.elements.site id).receiver = some r →
    ∀ o ∈ a.heap.pointsTo (.var m.ctx r), ∃ callee,
      q.program.dispatch? (a.heap.typeOf o)
        (q.program.subsignature (a.elements.site id).target) = some callee ∧
      (m, ⟨(a.elements.site id).kind, ⟨m.ctx, id⟩,
        ⟨q.policy.calleeContext m.ctx id (some o), callee⟩⟩) ∈ a.calls.calls ∧
      ∀ this, (a.elements.code callee).this = some this →
        o ∈ a.heap.pointsTo (.var (q.policy.calleeContext m.ctx id (some o)) this)
  reach : ∀ m e, (m, e) ∈ a.calls.calls → m = ⟨e.site.ctx, e.site.site.method⟩ ∧
    m ∈ a.calls.methods ∧ e.callee ∈ a.calls.methods
  arg : ∀ m e, (m, e) ∈ a.calls.calls → ∀ v x,
    (some v, some x) ∈
      (a.elements.site e.site.site).args.zip (a.elements.code e.callee.method).params →
    a.Flows (.var e.site.ctx v) (.var e.callee.ctx x)
  result : ∀ m e, (m, e) ∈ a.calls.calls → ∀ lhs, a.elements.result? e.site.site = some lhs →
    ∀ r ∈ (a.elements.code e.callee.method).returns,
      a.Flows (.var e.callee.ctx r) (.var e.site.ctx lhs)
  receiver : ∀ m e, (m, e) ∈ a.calls.calls → e.kind = .special →
    ∀ r, (a.elements.site e.site.site).receiver = some r →
    ∀ this, (a.elements.code e.callee.method).this = some this →
      a.Flows (.var e.site.ctx r) (.var e.callee.ctx this)

end Analysis

namespace Core

section

variable {q : Problem} {c : Core} {m : CtxMethod} {s : StmtId} (hc : c.Grounded q)
  (hbuilt : ∀ m, c.Holds (.reach m) → c.IsBuilt m.method) (h : ∀ f, c.Holds f ↔ q.Derives f)

include h

theorem flows_of_derives {x y : Pointer} (hxy : q.Derives (.flow x y)) : c.analysis.Flows x y :=
  fun o ho => (h (.points y o)).2 (.subset hxy ((h (.points x o)).1 ho))

include hc hbuilt

/-- The statements of reachable methods are those of the program. -/
theorem derives_of_runs {st : Stmt} (hrun : c.analysis.Runs m s st) :
    q.Derives (.reach m) ∧ s ∈ (q.program.code m.method).body ∧ q.program.stmt? s = some st := by
  obtain ⟨hm, hs, hst⟩ := hrun
  have hb := hbuilt m hm
  replace hs : s ∈ (c.elements.code m.method).body := hs
  rw [hc.tidy.code_eq hb] at hs
  refine ⟨(h (.reach m)).1 hm, hs, ?_⟩
  rw [← hc.tidy.stmt?_eq ((Program.mem_body_iff.1 hs).1 ▸ hb)]
  exact hst

/-- A call is of a method that was lowered, so the tables are right about its call site. -/
theorem site_eq_of_runs {id : SiteId} {lhs : Option VarId}
    (hrun : c.analysis.Runs m s (.call id lhs)) :
    c.analysis.elements.site id = q.program.site id := by
  obtain ⟨-, hs, hst⟩ := derives_of_runs hc hbuilt h hrun
  refine hc.tidy.site_eq ?_
  rw [(Program.site_of_call hst).1, (Program.mem_body_iff.1 hs).1]
  exact hbuilt m hrun.1

/-- Both ends of a call edge are of methods that were lowered. -/
theorem derives_of_mem_calls {e : CtxEdge} (he : (m, e) ∈ c.analysis.calls.calls) :
    q.Derives (.edge m e) ∧
      c.analysis.elements.site e.site.site = q.program.site e.site.site ∧
      c.analysis.elements.code e.callee.method = q.program.code e.callee.method := by
  have hd : q.Derives (.edge m e) := (h (.edge m e)).1 he
  exact ⟨hd, hc.tidy.site_eq (hc.knows (.edge m e) (.inl he)),
    hc.tidy.code_eq (hbuilt _ ((h _).2 (.callee hd)))⟩

/-- A dispatched call of a reachable method reaches its target on every object of its receiver. -/
theorem dispatched_of_runs (hno : ¬ q.Faulty) {id : SiteId} {lhs : Option VarId} {r : VarId}
    {o : Obj} (hrun : c.analysis.Runs m s (.call id lhs))
    (hk : (q.program.site id).kind.isDispatched = true)
    (hr : (q.program.site id).receiver = some r)
    (ho : o ∈ c.analysis.heap.pointsTo (.var m.ctx r)) :
    ∃ callee, q.program.dispatch? (c.analysis.heap.typeOf o)
        (q.program.subsignature (q.program.site id).target) = some callee ∧
      c.Holds (.edge m (q.edgeTo m id (some o) callee)) ∧
      ∀ this, (c.elements.code callee).this = some this →
        c.Holds (.points (.var (q.policy.calleeContext m.ctx id (some o)) this) o) := by
  obtain ⟨hm, hs, hst⟩ := derives_of_runs hc hbuilt h hrun
  have hv : q.program.base? s = some r := (Program.base?_call hst).trans hr
  have hpoints : q.Derives (.points (.var m.ctx r) o) := (h (.points _ _)).1 ho
  have htype := hc.tidy.typeOf_eq (hc.knows (.points _ _) (.inl ho)).2
  cases htarget : q.target? id o with
  | none => exact absurd (.dispatch hm hs hv hpoints hst hk htarget) hno
  | some callee =>
    have hreaction : ∀ {f}, q.Dispatched m id o f → q.Derives f := fun hf =>
      .reaction hm hs hv hpoints (.call hst hk hf)
    have hcallee : c.Holds (.reach (q.edgeTo m id (some o) callee).callee) :=
      (h _).2 (.callee (hreaction (.edge htarget)))
    refine ⟨callee, ?_, (h _).2 (hreaction (.edge htarget)), fun this hthis => ?_⟩
    · rw [Problem.target?, htype] at htarget
      exact htarget
    · have hcode : c.elements.code callee = q.program.code callee :=
        hc.tidy.code_eq (hbuilt _ hcallee)
      exact (h _).2 (hreaction (.this htarget (hcode ▸ hthis)))

/-- Where exactly the derived facts hold and the methods of the call graph were lowered, the result
is closed under the rules. -/
theorem closed_of_holds_iff_derives (hlowered : c.LoweredOk q) (hno : ¬ q.Faulty) :
    c.analysis.Closed q where
  code m hm := ⟨hc.tidy.code_eq (hbuilt m hm), hlowered _ (hbuilt m hm)⟩
  entry m hm := (h (.reach ⟨[], m⟩)).2 (.entry hm)
  alloc m s lhs ty hrun := by
    obtain ⟨hm, hs, hst⟩ := derives_of_runs hc hbuilt h hrun
    exact (h (.points _ _)).2 (.effect hm hs (.alloc hst))
  assign m s lhs rhs hrun := by
    obtain ⟨hm, hs, hst⟩ := derives_of_runs hc hbuilt h hrun
    exact flows_of_derives h (.effect hm hs (.assign hst))
  load m s lhs base f hrun o ho := by
    obtain ⟨hm, hs, hst⟩ := derives_of_runs hc hbuilt h hrun
    have hpoints : q.Derives (.points (.var m.ctx base) o) := (h (.points _ _)).1 ho
    exact flows_of_derives h (.reaction hm hs (Program.base?_load hst) hpoints (.load hst))
  store m s base f rhs hrun o ho := by
    obtain ⟨hm, hs, hst⟩ := derives_of_runs hc hbuilt h hrun
    have hpoints : q.Derives (.points (.var m.ctx base) o) := (h (.points _ _)).1 ho
    exact flows_of_derives h (.reaction hm hs (Program.base?_store hst) hpoints (.store hst))
  site m s id lhs hrun := by
    obtain ⟨hm, hs, hst⟩ := derives_of_runs hc hbuilt h hrun
    exact (h (.site _ _)).2 (.effect hm hs (.site hst))
  call m s id lhs hrun hk := by
    obtain ⟨hm, hs, hst⟩ := derives_of_runs hc hbuilt h hrun
    rw [site_eq_of_runs hc hbuilt h hrun] at hk ⊢
    exact (h (.edge _ _)).2 (.effect hm hs (.call hst hk))
  dispatch m s id lhs r hrun hk hr o ho := by
    rw [site_eq_of_runs hc hbuilt h hrun] at hk hr ⊢
    exact dispatched_of_runs hc hbuilt h hno hrun hk hr ho
  reach m e he := by
    have hd := (derives_of_mem_calls hc hbuilt h he).1
    exact ⟨hd.home.1, (h (.reach m)).2 hd.home.2.1, (h (.reach _)).2 (.callee hd)⟩
  arg m e he v x hvx := by
    obtain ⟨hd, hs, hcode⟩ := derives_of_mem_calls hc hbuilt h he
    rw [hs, hcode] at hvx
    exact flows_of_derives h (.binding hd (.arg hvx))
  result m e he lhs hlhs r hr := by
    obtain ⟨hd, -, hcode⟩ := derives_of_mem_calls hc hbuilt h he
    obtain ⟨-, -, -, s, lhs', hst⟩ := hd.home
    have hresult := result?_eq hc.tidy hst (hc.knows (.edge m e) (.inl he))
    cases hresult.symm.trans hlhs
    exact flows_of_derives h (.binding hd (.result hst (hcode ▸ hr)))
  receiver m e he hk r hr this hthis := by
    obtain ⟨hd, hs, hcode⟩ := derives_of_mem_calls hc hbuilt h he
    exact flows_of_derives h (.binding hd (.receiver hk (hs ▸ hr) (hcode ▸ hthis)))

end

end Core

/-- **Soundness.** With a queue as worklist, the result of every run that ends without error is
closed under the rules of the analysis. -/
theorem Solver.solve_closed {q : Problem} {s : Solver .idle} {fuel : Nat}
    (h : (q.solver .fifo).solve fuel = (s, .done ())) : s.core.analysis.Closed q := by
  have hend := solve_underway h
  exact Core.closed_of_holds_iff_derives hend.grounded (fun m hm => (ran_of_fifo h hm).1)
    (fun f => holds_iff_derives_of_fifo h) hend.complete.lowered (not_faulty_of_fifo h)

/-- A small problem: `main` makes an object and visits it, and a visit leaves the object before it
makes another one. -/
def Problem.visitor : Problem where
  program :=
    { classes := [{ name := "A" }]
      methods :=
        [{ owner := ⟨0⟩, name := "main", isStatic := true
           body := some
            { locals := [⟨"x", .cls ⟨0⟩⟩]
              instructions :=
                [.assign (.local ⟨0⟩) (.new ⟨0⟩), .invoke ⟨0xb6, ⟨1⟩, some (.local ⟨0⟩), []⟩] } },
         { owner := ⟨0⟩, name := "visit"
           body := some
            { thisLocal := some ⟨0⟩
              locals := [⟨"this", .cls ⟨0⟩⟩, ⟨"y", .cls ⟨0⟩⟩]
              instructions :=
                [.invoke ⟨0xb6, ⟨2⟩, some (.local ⟨0⟩), []⟩, .assign (.local ⟨1⟩) (.new ⟨0⟩)] } },
         { owner := ⟨0⟩, name := "leave"
           body := some { thisLocal := some ⟨0⟩, locals := [⟨"this", .cls ⟨0⟩⟩] } }] }
  entries := [⟨0⟩]
  policy := .insensitive

theorem Solver.solve_closed_visitor :
    ∃ s, (Problem.visitor.solver .fifo).solve 100 = (s, .done ()) ∧
      s.core.analysis.Closed .visitor := by
  have hdone : ((Problem.visitor.solver .fifo).solve 100).2 = .done () := by decide +kernel
  generalize hr : (Problem.visitor.solver .fifo).solve 100 = r at hdone
  obtain ⟨s, v⟩ := r
  obtain rfl : v = .done () := hdone
  exact ⟨s, rfl, solve_closed hr⟩

end PointsTo
