import PointsTo.Proofs.Solver.Obligations
import PointsTo.Proofs.Solver.Works

/-!
# What becomes of injected statements

The statements of a body are noted with the variables that they depend on. Those that plugins inject
are not: the solver notes them with pointers, and applies them to the objects that are there and to
those that arrive later. As long as no task fails, none of them is forgotten.

* `Core.Installed`: the effects of a statement itself are due, and it waits for objects;
* `Core.Served`: a statement was applied to an object; `Core.Attended`: or a task will see to it;
* `Core.Tied`: the arguments and results of a call edge are bound, unless its callee is ignored;
* `Core.Leads`: what a task does to all of these, and what it was there for;
* `Core.Tended`: objects and waiting statements meet, and call edges are bound, now or by a task.
-/

namespace PointsTo

/-- The task sees to it that the injected statement `s` is applied to `o` in the context `ctx`. -/
def Task.Serves (c : Core) (ctx : Context) (s : StmtId) (o : Obj) : Task → Prop
  | .wake ctx' v delta => ctx' = ctx ∧ s ∈ c.watchers.get (.var ctx v) ∧ o ∈ delta
  | .react m s' os => m.ctx = ctx ∧ s' = s ∧ o ∈ os
  | .dispatch _ site o' => site.ctx = ctx ∧ o' = o ∧ ∃ lhs, c.elements.Has s (.call site.site lhs)
  | _ => False

theorem Task.Serves.mono {c c' : Core} {ctx : Context} {s : StmtId} {o : Obj} {t : Task}
    (h : c.Grows c') (ht : t.Serves c ctx s o) : t.Serves c' ctx s o := by
  cases t with
  | wake ctx' v delta => exact ⟨ht.1, h.watchers _ s ht.2.1, ht.2.2⟩
  | react m s' os => exact ht
  | dispatch m site o' => exact ⟨ht.1, ht.2.1, ht.2.2.imp fun lhs hs => h.elements.grows.has hs⟩
  | _ => exact ht.elim

namespace Core

/-- A call edge is recorded, on the worklist, or about to be recorded, whoever its caller is. -/
def Expects (c : Core) (tasks : List Task) (e : CtxEdge) : Prop := ∃ m, c.Promises tasks (.edge m e)

/-- The call edge from a call site to a callee, in the context that the policy chooses. -/
def edgeAt (c : Core) (s : CtxSite) (receiver : Option Obj) (callee : MethodId) : CtxEdge :=
  ⟨(c.elements.site s.site).kind, s, ⟨c.policy.calleeContext s.ctx s.site receiver, callee⟩⟩

/-- A dispatched call on an object has a callee. Unless this is ignored, its receiver refers to the
object, or will. -/
def Resolved (c : Core) (tasks : List Task) (s : CtxSite) (o : Obj) : Prop :=
  ∃ callee, c.program.dispatch? (c.analysis.heap.typeOf o)
      (c.program.subsignature (c.elements.site s.site).target) = some callee ∧
    c.Expects tasks (c.edgeAt s (some o) callee) ∧
    (callee ∉ c.ignored → c.IsBuilt callee ∧ ∀ this, (c.elements.code callee).this = some this →
      c.Due (.points (.var (c.policy.calleeContext s.ctx s.site (some o)) this) o))

/-- A statement was applied to an object in a context. -/
def Served (c : Core) (tasks : List Task) (ctx : Context) (o : Obj) : Stmt → Prop
  | .load lhs _ f => c.Holds (.flow (.field o f) (.var ctx lhs))
  | .store _ f rhs => c.Holds (.flow (.var ctx rhs) (.field o f))
  | .call id _ => (c.elements.site id).kind.isDispatched = true → c.Resolved tasks ⟨ctx, id⟩ o
  | .alloc _ _ | .assign _ _ => True

/-- A statement was applied to an object in a context, or a task is there to do it. -/
def Attended (c : Core) (tasks : List Task) (ctx : Context) (o : Obj) (s : StmtId) (st : Stmt) :
    Prop :=
  c.Served tasks ctx o st ∨ ∃ t ∈ tasks, t.Serves c ctx s o

/-- A statement was run in a context: its own effects are due, and it waits for the objects that it
is to be applied to. -/
def Installed (c : Core) (tasks : List Task) (m : CtxMethod) (s : StmtId) : Stmt → Prop
  | .alloc lhs _ => c.Due (.points (.var m.ctx lhs) ⟨s, c.policy.heapContext m.ctx⟩)
  | .assign lhs rhs => c.Holds (.flow (.var m.ctx rhs) (.var m.ctx lhs))
  | .load _ base _ | .store base _ _ => s ∈ c.watchers.get (.var m.ctx base)
  | .call id _ =>
    ((c.elements.site id).kind = .static ∨ (c.elements.site id).kind = .special →
      c.Expects tasks (c.edgeAt ⟨m.ctx, id⟩ none (c.elements.site id).target)) ∧
    ∀ r, (c.elements.site id).kind.isDispatched = true → (c.elements.site id).receiver = some r →
      s ∈ c.watchers.get (.var m.ctx r)

/-- What a call edge binds. -/
inductive Ties (c : Core) (e : CtxEdge) : Fact → Prop
  | arg {a v : VarId} (h : (some a, some v) ∈
      (c.elements.site e.site.site).args.zip (c.elements.code e.callee.method).params) :
      Ties c e (.flow (.var e.site.ctx a) (.var e.callee.ctx v))
  | result {r lhs : VarId} (hr : r ∈ (c.elements.code e.callee.method).returns)
      (hlhs : c.elements.result? e.site.site = some lhs) :
      Ties c e (.flow (.var e.callee.ctx r) (.var e.site.ctx lhs))
  | receiver {r this : VarId} (hk : e.kind = .special)
      (hr : (c.elements.site e.site.site).receiver = some r)
      (ht : (c.elements.code e.callee.method).this = some this) :
      Ties c e (.flow (.var e.site.ctx r) (.var e.callee.ctx this))

/-- What a call edge binds is bound, unless the callee is ignored. -/
def Tied (c : Core) (e : CtxEdge) : Prop :=
  e.callee.method ∈ c.ignored ∨ c.IsBuilt e.callee.method ∧ ∀ f, c.Ties e f → c.Holds f

variable {c c' : Core} {t : Task} {l l' ts rest : List Task} {m : CtxMethod} {s : StmtId}
  {st : Stmt} {o : Obj} {e : CtxEdge} {ctx : Context}

/-! ### Later states -/

/-- A later state with other tasks to be done: nothing that was found or promised is lost. -/
structure Follows (c : Core) (l : List Task) (c' : Core) (l' : List Task) : Prop where
  grows : c.Grows c'
  points : ∀ p o, c.Due (.points p o) → c'.Due (.points p o)
  expects : ∀ e, c.Expects l e → c'.Expects l' e

theorem Expects.append (h : c.Expects ts e) : c.Expects (ts ++ rest) e :=
  h.imp fun _ => Promises.append_right

theorem follows_append (c : Core) (ts rest : List Task) : c.Follows ts c (ts ++ rest) :=
  ⟨.refl c, fun _ _ => id, fun _ => .append⟩

/-- The call site of a call that is there stays as it is. -/
theorem WellFormed.site_becomes (hwf : c.WellFormed) (h : c.Grows c') {id : SiteId}
    {lhs : Option VarId} (hs : c.elements.Has s (.call id lhs)) :
    (c.elements.site id).Becomes (c'.elements.site id) := by
  obtain ⟨t, owner, ht, -⟩ := hwf.sound.owned s id lhs hs
  exact h.elements.grows.site ht

section

variable (h : c.Follows l c' l') (hwf : c.WellFormed)

include h hwf

theorem Follows.edgeAt {id : SiteId} {lhs : Option VarId} (hs : c.elements.Has s (.call id lhs))
    (ctx : Context) (receiver : Option Obj) (callee : MethodId) :
    c'.edgeAt ⟨ctx, id⟩ receiver callee = c.edgeAt ⟨ctx, id⟩ receiver callee := by
  simp only [Core.edgeAt, (hwf.site_becomes h.grows hs).kind_eq, h.grows.policy_eq]

theorem Resolved.follows {id : SiteId} {lhs : Option VarId} (hs : c.elements.Has s (.call id lhs))
    (ho : o ∈ c.analysis.heap.objs.keys) (hr : c.Resolved l ⟨ctx, id⟩ o) :
    c'.Resolved l' ⟨ctx, id⟩ o := by
  obtain ⟨callee, hdispatch, hedge, hcallee⟩ := hr
  have hprogram : c'.program = c.program := h.grows.elements.grows.program_eq
  refine ⟨callee, ?_, ?_, fun hignored => ?_⟩
  · rw [hprogram, h.grows.typeOf_eq ho, (hwf.site_becomes h.grows hs).target_eq]
    exact hdispatch
  · rw [h.edgeAt hwf hs]
    exact h.expects _ hedge
  · obtain ⟨hbuilt, hthis⟩ := hcallee fun hi => hignored (h.grows.ignored callee hi)
    obtain ⟨-, hthis', -⟩ := (h.grows.elements.grows.code callee).built hbuilt
    refine ⟨h.grows.isBuilt hbuilt, fun this ht => ?_⟩
    rw [h.grows.policy_eq]
    exact h.points _ o (hthis this (hthis'.symm.trans ht))

theorem Served.follows (hs : c.elements.Has s st) (ho : o ∈ c.analysis.heap.objs.keys)
    (hr : c.Served l ctx o st) : c'.Served l' ctx o st := by
  cases st with
  | alloc | assign => trivial
  | load lhs base x => exact h.grows.holds (.flow _ _) hr
  | store base x rhs => exact h.grows.holds (.flow _ _) hr
  | call id lhs =>
    intro hk
    rw [(hwf.site_becomes h.grows hs).kind_eq] at hk
    exact Resolved.follows h hwf hs ho (hr hk)

theorem Installed.follows (hs : c.elements.Has s st) (hi : c.Installed l m s st) :
    c'.Installed l' m s st := by
  cases st with
  | alloc lhs ty =>
    show c'.Due (.points (.var m.ctx lhs) ⟨s, c'.policy.heapContext m.ctx⟩)
    rw [h.grows.policy_eq]
    exact h.points _ _ hi
  | assign lhs rhs => exact h.grows.holds (.flow _ _) hi
  | load lhs base x => exact h.grows.watchers _ s hi
  | store base x rhs => exact h.grows.watchers _ s hi
  | call id lhs =>
    have hsite := hwf.site_becomes h.grows hs
    refine ⟨fun hk => ?_, fun r hk hr => ?_⟩
    · rw [hsite.kind_eq] at hk
      rw [hsite.target_eq, h.edgeAt hwf hs]
      exact h.expects _ (hi.1 hk)
    · rw [hsite.kind_eq] at hk
      rw [hsite.receiver_eq] at hr
      exact h.grows.watchers _ s (hi.2 r hk hr)

end

/-- The results of a call that is there go to the same variable later. -/
theorem WellFormed.result?_eq (hwf : c.WellFormed) (h : c.Grows c') (hfit : c.elements.Fits e) :
    c'.elements.result? e.site.site = c.elements.result? e.site.site := by
  obtain ⟨t, owner, ht, howner, -⟩ := hfit
  obtain ⟨lhs, hlhs⟩ := hwf.sound.owner _ t owner ht howner
  obtain ⟨t', ht', hb⟩ := h.elements.grows.site? ht
  rw [Elements.result?_of_owner ht howner hlhs,
    Elements.result?_of_owner ht' (hb.call owner howner) (h.elements.grows.has hlhs)]

/-- What a call edge binds is the same later, once the callee is lowered. -/
theorem Ties.of_grows (h : c.Grows c') (hwf : c.WellFormed) (hfit : c.elements.Fits e)
    (hbuilt : c.IsBuilt e.callee.method) {f : Fact} (hf : c'.Ties e f) : c.Ties e f := by
  have hresult := hwf.result?_eq h hfit
  obtain ⟨t, -, ht, -⟩ := hfit
  have hsite := h.elements.grows.site ht
  obtain ⟨-, hthis, hparams, hreturns⟩ := (h.elements.grows.code e.callee.method).built hbuilt
  cases hf with
  | arg h => exact .arg (by rwa [hsite.args_eq, hparams] at h)
  | result hr hlhs => exact .result (hreturns ▸ hr) (hresult ▸ hlhs)
  | receiver hk hr ht => exact .receiver hk (hsite.receiver_eq ▸ hr) (hthis ▸ ht)

theorem Tied.grows (h : c.Grows c') (hwf : c.WellFormed) (hfit : c.elements.Fits e)
    (he : c.Tied e) : c'.Tied e := by
  rcases he with he | ⟨hbuilt, he⟩
  · exact .inl (h.ignored _ he)
  · exact .inr ⟨h.isBuilt hbuilt, fun f hf => h.holds f (he f (hf.of_grows h hwf hfit hbuilt))⟩

/-! ### What a task does -/

/-- The task `t` leads from `c` to `c'` and calls for `ts`. What was found and promised stays, what
the task was there for is done or left to `ts`, and so is what has newly to be done. -/
structure Leads (t : Task) (c c' : Core) (ts : List Task) : Prop where
  grows : c.Grows c'
  points : ∀ p o, c.Due (.points p o) → c'.Due (.points p o)
  edges : ∀ m e, c.Due (.edge m e) → c'.Expects ts e
  recorded : ∀ m e, t = .record m e → c'.Expects ts e
  served : ∀ ctx o s st, c.elements.Has s st → t.Serves c ctx s o → c'.Attended ts ctx o s st
  installed : ∀ m s st, t = .exec m s true → c.elements.Has s st → c'.Installed ts m s st
  tied : ∀ e, t = .bind e → c'.Tied e
  watched : ∀ ctx v o s st, c'.Holds (.points (.var ctx v) o) → s ∈ c'.watchers.get (.var ctx v) →
    c'.elements.Has s st → (c.Holds (.points (.var ctx v) o) ∧ s ∈ c.watchers.get (.var ctx v)) ∨
      c'.Attended ts ctx o s st
  called : ∀ m e, c'.Holds (.edge m e) → c.Holds (.edge m e) ∨ .bind e ∈ ts

namespace Leads

theorem follows (h : Leads t c c' ts) : c.Follows (t :: rest) c' (ts ++ rest) := by
  refine ⟨h.grows, h.points, ?_⟩
  rintro e ⟨m, hdue | ⟨m', e', hmem, heq⟩⟩
  · exact (h.edges m e hdue).append
  · cases heq
    rcases List.mem_cons.1 hmem with rfl | hmem
    · exact (h.recorded m e rfl).append
    · exact ⟨m, .inr ⟨m, e, List.mem_append_right _ hmem, rfl⟩⟩

theorem attended (h : Leads t c c' ts) (hwf : c.WellFormed) (hwf' : c'.WellFormed)
    (hs : c.elements.Has s st) (ho : o ∈ c.analysis.heap.objs.keys)
    (ha : c.Attended (t :: rest) ctx o s st) : c'.Attended (ts ++ rest) ctx o s st := by
  rcases ha with ha | ⟨t', ht', hserves⟩
  · exact .inl (Served.follows h.follows hwf hs ho ha)
  · rcases List.mem_cons.1 ht' with rfl | ht'
    · rcases h.served ctx o s st hs hserves with ha | ⟨t', ht', hserves⟩
      · exact .inl (Served.follows (follows_append c' ts rest) hwf' (h.grows.elements.grows.has hs)
          (h.grows.mem_objs ho) ha)
      · exact .inr ⟨t', List.mem_append_left _ ht', hserves⟩
    · exact .inr ⟨t', List.mem_append_right _ ht', hserves.mono h.grows⟩

/-- A task that is there for an item of the worklist only. -/
theorem of_next (grows : c.Grows c') (points : ∀ p o, c.Due (.points p o) → c'.Due (.points p o))
    (edges : ∀ m e, c.Due (.edge m e) → c'.Expects ts e)
    (watched : ∀ ctx v o s st, c'.Holds (.points (.var ctx v) o) →
      s ∈ c'.watchers.get (.var ctx v) → c'.elements.Has s st →
      (c.Holds (.points (.var ctx v) o) ∧ s ∈ c.watchers.get (.var ctx v)) ∨
        c'.Attended ts ctx o s st)
    (called : ∀ m e, c'.Holds (.edge m e) → c.Holds (.edge m e) ∨ .bind e ∈ ts) :
    Leads .next c c' ts :=
  ⟨grows, points, edges, nofun, nofun, nofun, nofun, watched, called⟩

/-- A task that edits the state and waits for nothing new. -/
theorem of_edits (h : Edits t.Deeds c c') (hexec : ∀ m s, t ≠ .exec m s true)
    (hrecord : ∀ m e, t ≠ .record m e)
    (hserved : ∀ ctx o s st, c.elements.Has s st → t.Serves c ctx s o → c'.Attended ts ctx o s st)
    (htied : ∀ e, t = .bind e → c'.Tied e) : Leads t c c' ts where
  grows := h.grows
  points _ _ := h.due
  edges m _ he := ⟨m, .inl (h.due he)⟩
  recorded m e ht := absurd ht (hrecord m e)
  served := hserved
  installed m s _ ht := absurd ht (hexec m s)
  tied := htied
  watched ctx v o s st ho hs _ := by
    rcases h.watchers hs with hs | hd
    · exact .inl ⟨(h.holds_points _ o).1 ho, hs⟩
    · cases t with
      | exec m s' injected =>
        obtain ⟨rfl, -⟩ := hd
        exact absurd rfl (hexec m s')
      | _ => exact hd.elim
  called m e he := by
    rcases h.calls he with he | hd
    · exact .inl he
    · cases t with
      | record m' e' => exact absurd rfl (hrecord m' e')
      | _ => exact hd.elim

end Leads

/-! ### Statements -/

/-- A reaction to the objects that are there is called for. -/
theorem watch_reacts {v : VarId} {injected : Bool} (h : c.watch m v s injected = (c', .ok ts))
    (ho : c'.Holds (.points (.var m.ctx v) o)) : ∃ os, .react m s os ∈ ts ∧ o ∈ os := by
  have hreacts : ∀ c₁ : Core, (if (c₁.pointsTo (.var m.ctx v)).isEmpty then c₁.proceed []
      else c₁.proceed [.react m s (c₁.pointsTo (.var m.ctx v))]) = (c', .ok ts) →
        ∃ os, .react m s os ∈ ts ∧ o ∈ os := by
    intro c₁ h
    split at h <;> rename_i hempty <;> cases h
    · exact absurd ho (OrderedSet.isEmpty_iff.1 hempty o)
    · exact ⟨_, List.mem_singleton.2 rfl, ho⟩
  exact hreacts _ h

/-- An injected statement is noted with its pointer. -/
theorem watch_injected {v : VarId} (h : c.watch m v s true = (c', .ok ts)) :
    s ∈ c'.watchers.get (.var m.ctx v) := by
  have hmem : ∀ c₁ : Core, s ∈ (c₁.watchers.update (.var m.ctx v) default (· ++ [s])).get
      (.var m.ctx v) := by
    intro c₁
    rw [Table.get_update_default, if_pos rfl]
    simp
  unfold watch at h
  simp only [if_true] at h
  split at h <;> cases h <;> exact hmem _

/-- A static or special call goes on the worklist at once. -/
theorem execCall_bound {id : SiteId}
    (hk : (c.elements.site id).kind = .static ∨ (c.elements.site id).kind = .special)
    (m : CtxMethod) (s : StmtId) (injected : Bool) :
    c.execCall m s id injected = ((c.modifyCalls (·.addSite m ⟨m.ctx, id⟩)).call m
      (c.elements.site id).kind ⟨m.ctx, id⟩ none (c.elements.site id).target).proceed [] := by
  unfold execCall
  rcases hk with hk | hk <;> simp only [hk]

/-- The effects of a statement that waits for nothing. -/
theorem exec_installed (hwf : c.WellFormed) (hs : c.elements.Has s st) (hv : c.awaited? st = none)
    {injected : Bool} (h : c.exec m s injected = (c', .ok ts)) : c'.Installed ts m s st := by
  have hworks := exec_quiet (D := fun _ => False) hwf hs hv m injected
  rw [h] at hworks
  unfold exec at h
  rw [hs] at h
  cases st with
  | alloc lhs ty =>
    cases h
    exact (adds_push _ _).due (.points (OrderedSet.mem_singleton.2 rfl))
  | assign lhs rhs =>
    cases h
    exact ((adds_link c _ _).holds _).2 (.inr ⟨rfl, id⟩)
  | load | store => cases hv
  | call id lhs =>
    have hgrows : c.Grows c' := hworks.edits.grows
    have hsite := hwf.site_becomes hgrows hs
    refine ⟨fun hk => ⟨m, .inl ?_⟩, fun r hk hr => ?_⟩
    · rw [hsite.kind_eq] at hk
      simp only [execCall_bound hk] at h
      cases h
      exact (adds_push _ _).due .edge
    · rw [hsite.kind_eq] at hk
      rw [hsite.receiver_eq] at hr
      simp [awaited?, hk, hr] at hv

/-- Running a statement records no call edge, and an injected one that waits for objects is to be
applied to those that are there. -/
theorem leads_exec {D : Deed → Prop} {injected : Bool} (h : Edits D c c')
    (hrecord : ∀ m e, ¬ D (.record m e))
    (hwatch : ∀ p s', D (.watch p s') → s' = s ∧ (∃ v, p = .var m.ctx v) ∧
      ∀ o, c'.Holds (.points p o) → ∃ os, .react m s os ∈ ts ∧ o ∈ os)
    (hinstalled : ∀ st, c.elements.Has s st → injected = true → c'.Installed ts m s st) :
    Leads (.exec m s injected) c c' ts where
  grows := h.grows
  points _ _ := h.due
  edges m _ he := ⟨m, .inl (h.due he)⟩
  recorded := nofun
  served := nofun
  installed := by
    rintro _ _ st ⟨⟩ hs
    exact hinstalled st hs rfl
  tied := nofun
  watched ctx v o s' st' ho hs' _ := by
    rcases h.watchers hs' with hs' | hd
    · exact .inl ⟨(h.holds_points _ o).1 ho, hs'⟩
    · obtain ⟨rfl, ⟨v', heq⟩, hreact⟩ := hwatch _ s' hd
      cases heq
      obtain ⟨os, hos, hmem⟩ := hreact o ho
      exact .inr (.inr ⟨_, hos, rfl, rfl, hmem⟩)
  called m e he := (h.calls he).imp_right fun hd => absurd hd (hrecord m e)

theorem Installed.of_awaited {v : VarId} (hwf : c.WellFormed) (hs : c.elements.Has s st)
    (hv : c.awaited? st = some v) (h : c.Grows c') (hmem : s ∈ c'.watchers.get (.var m.ctx v)) :
    c'.Installed ts m s st := by
  cases st with
  | alloc | assign => cases hv
  | load lhs base x =>
    cases hv
    exact hmem
  | store base x rhs =>
    cases hv
    exact hmem
  | call id lhs =>
    have hsite := hwf.site_becomes h hs
    simp only [awaited?] at hv
    split at hv <;> rename_i hk
    · refine ⟨fun hk' => ?_, fun r _ hr => ?_⟩
      · rw [hsite.kind_eq] at hk'
        rcases hk' with hk' | hk' <;> simp [hk', CallKind.isDispatched] at hk
      · rw [hsite.receiver_eq, hv] at hr
        cases hr
        exact hmem
    · cases hv

theorem exec_leads (hwf : c.WellFormed) {injected : Bool}
    (h : c.exec m s injected = (c', .ok ts)) : Leads (.exec m s injected) c c' ts := by
  cases hs : (c.elements.stmt? s).map PlacedStmt.stmt with
  | none =>
    unfold exec at h
    rw [hs] at h
    cases h
    refine leads_exec (D := fun _ => False) .refl (fun _ _ => id) (fun _ _ => False.elim)
      fun st hst => ?_
    cases hs.symm.trans hst
  | some st =>
    cases hv : c.awaited? st with
    | none =>
      have hworks := exec_quiet (D := fun _ => False) hwf hs hv m injected
      rw [h] at hworks
      refine leads_exec hworks.edits (fun _ _ => id) (fun _ _ => False.elim) ?_
      rintro st' hst' rfl
      cases hs.symm.trans hst'
      exact exec_installed hwf hs hv h
    | some v =>
      obtain ⟨c₁, hquiet, heq⟩ := exec_watch hs hv m injected
      have hworks := watch_works (D := fun d => injected = true ∧ d = .watch (.var m.ctx v) s)
        (hwf.edits hquiet) m v (hquiet.grows.elements.grows.has hs) fun hi => ⟨hi, rfl⟩
      rw [heq] at h
      rw [h] at hworks
      have hedits : Edits _ c c' := hquiet.of_quiet.trans hworks.edits
      have hgrows := hedits.grows
      refine leads_exec hedits ?_ ?_ ?_
      · rintro m e ⟨-, ⟨⟩⟩
      · rintro p s' ⟨rfl, ⟨⟩⟩
        exact ⟨rfl, ⟨v, rfl⟩, fun o => watch_reacts h⟩
      · rintro st' hst' rfl
        cases hs.symm.trans hst'
        exact .of_awaited hwf hs hv hgrows (watch_injected h)

theorem react_served {os : PointsToSet} (hs : c.elements.Has s st)
    (h : c.react m s os = (c', .ok ts)) (ho : o ∈ os) : c'.Attended ts m.ctx o s st := by
  unfold react at h
  rw [hs] at h
  cases st with
  | alloc | assign => exact .inl trivial
  | load lhs base x =>
    cases h
    exact .inl (((adds_foldl_link os.toList (.field · x) (fun _ => .var m.ctx lhs) _).holds _).2
      (.inr ⟨⟨o, ho, rfl⟩, id⟩))
  | store base x rhs =>
    cases h
    exact .inl (((adds_foldl_link os.toList (fun _ => .var m.ctx rhs) (.field · x) _).holds _).2
      (.inr ⟨⟨o, ho, rfl⟩, id⟩))
  | call id lhs =>
    simp only at h
    split at h <;> rename_i hk <;> cases h
    · exact .inr ⟨.dispatch m ⟨m.ctx, id⟩ o, List.mem_map_of_mem ho, rfl, rfl, lhs, hs⟩
    · exact .inl fun hk' => absurd hk' hk

/-! ### Calls -/

/-- A method that is lowered first is lowered afterwards, unless there is an error. -/
theorem lowering_ok {m : MethodId} {k : Core → Outcome} (h : c.lowering m k = (c', .ok ts)) :
    (c.lower m).2.IsBuilt m ∧ k (c.lower m).2 = (c', .ok ts) := by
  have hbuilt : (c.lower m).2.IsBuilt m := c.elements.isBuilt_lower_self m
  unfold lowering at h
  cases hl : c.lower m with
  | mk r c₁ =>
    rw [hl] at h hbuilt
    cases r with
    | ok => exact ⟨hbuilt, h⟩
    | error e => cases h

/-- A dispatched call that does not fail has a callee, and its edge and the object are on their
way. -/
theorem dispatch_resolved (hwf : c.WellFormed) {caller : CtxMethod} {id : SiteId}
    {lhs : Option VarId} (hs : c.elements.Has s (.call id lhs))
    (ho : o ∈ c.analysis.heap.objs.keys) (h : c.dispatch caller ⟨ctx, id⟩ o = (c', .ok ts)) :
    c'.Resolved ts ⟨ctx, id⟩ o := by
  have hworks := dispatch_works (D := fun _ => False) hwf caller ⟨ctx, id⟩ hs ho
  rw [h] at hworks
  have hgrows : c.Grows c' := hworks.edits.grows
  have hsite := hwf.site_becomes hgrows hs
  have hprogram : c'.program = c.program := hgrows.elements.grows.program_eq
  obtain ⟨hfound, -⟩ := Elements.dispatch_spec hwf.sound.memo (c.analysis.heap.typeOf o)
    (c.program.subsignature (c.elements.site id).target)
  unfold dispatch at h
  simp only at h
  rw [hfound] at h
  cases hcallee : c.elements.program.dispatch? (c.analysis.heap.typeOf o)
    (c.program.subsignature (c.elements.site id).target) with
  | none =>
    rw [hcallee] at h
    cases h
  | some callee =>
    rw [hcallee] at h
    simp only at h
    set c₁ := (c.withElements (c.elements.dispatch (c.analysis.heap.typeOf o)
      (c.program.subsignature (c.elements.site id).target)).2).call caller
        (c.elements.site id).kind ⟨ctx, id⟩ (some o) callee with hc₁
    have hedge : c₁.Due (.edge caller (c.edgeAt ⟨ctx, id⟩ (some o) callee)) :=
      (adds_push _ _).due .edge
    -- the edge is on the worklist in any case; what is left to show is about the receiver
    have hrest : c'.Due (.edge caller (c.edgeAt ⟨ctx, id⟩ (some o) callee)) →
        (callee ∉ c'.ignored → c'.IsBuilt callee ∧
          ∀ this, (c'.elements.code callee).this = some this →
            c'.Due (.points (.var (c'.policy.calleeContext ctx id (some o)) this) o)) →
        c'.Resolved ts ⟨ctx, id⟩ o := by
      intro hdue hthis
      refine ⟨callee, ?_, ⟨caller, .inl ?_⟩, hthis⟩
      · rw [hprogram, hgrows.typeOf_eq ho, hsite.target_eq]
        exact hcallee
      · rw [edgeAt, hsite.kind_eq, hgrows.policy_eq]
        exact hdue
    split at h <;> rename_i hignored
    · obtain rfl : c₁ = c' := congrArg Prod.fst h
      exact hrest hedge fun hno => absurd hignored hno
    · -- the object is sent once the callee is lowered
      obtain ⟨hbuilt, hk⟩ := lowering_ok h
      have hlow : (c₁.lower callee).2.Due (.edge caller (c.edgeAt ⟨ctx, id⟩ (some o) callee)) :=
        (edits_lower (D := fun _ => False) c₁ callee).due hedge
      split at hk <;> rename_i hthis <;> cases hk
      · refine hrest hlow fun _ => ⟨hbuilt, fun this hthis' => ?_⟩
        cases hthis.symm.trans hthis'
      · refine hrest ((adds_send _ _ o).due_of_due hlow) fun _ => ⟨hbuilt, fun this hthis' => ?_⟩
        cases hthis.symm.trans hthis'
        exact (adds_send _ _ o).due rfl

/-- Binding along a call edge that does not fail binds all there is, unless the callee is
ignored. -/
theorem bind_tied (hwf : c.WellFormed) (hfit : c.elements.Fits e)
    (h : c.bind e = (c', .ok ts)) : c'.Tied e := by
  unfold bind at h
  split at h <;> rename_i hignored
  · cases h
    exact .inl hignored
  · obtain ⟨hbuilt, hk⟩ := lowering_ok h
    have hlow : Edits (fun _ => False) c (c.lower e.callee.method).2 := edits_lower c _
    have hwf₁ := hwf.edits hlow
    have hfit₁ := hlow.grows.elements.grows.fits hfit
    set c₁ := (c.lower e.callee.method).2
    simp only at hk
    have hargs := adds_bindArgs c₁ e.site.ctx e.callee.ctx (c₁.elements.site e.site.site).args
      (c₁.elements.code e.callee.method).params
    have hedits₂ : Edits (fun _ => False) c₁ _ := edits_bindArgs c₁ e.site.ctx e.callee.ctx
      (c₁.elements.site e.site.site).args (c₁.elements.code e.callee.method).params
    set c₂ := c₁.bindArgs e.site.ctx e.callee.ctx (c₁.elements.site e.site.site).args
      (c₁.elements.code e.callee.method).params
    rw [hwf₁.result?_eq hedits₂.grows hfit₁] at hk
    have hresult := adds_bindResult c₂ e.site.ctx e.callee.ctx
      (c₁.elements.code e.callee.method).returns (c₁.elements.result? e.site.site)
    have hedits₃ : Edits (fun _ => False) c₂ _ := edits_bindResult c₂ e.site.ctx e.callee.ctx
      (c₁.elements.code e.callee.method).returns (c₁.elements.result? e.site.site)
    set c₃ := c₂.bindResult e.site.ctx e.callee.ctx (c₁.elements.code e.callee.method).returns
      (c₁.elements.result? e.site.site)
    -- the receiver of a special call is bound last
    have hrest : c₃.Grows c' → (∀ r this, e.kind = .special →
        (c₁.elements.site e.site.site).receiver = some r →
        (c₁.elements.code e.callee.method).this = some this →
          c'.Holds (.flow (.var e.site.ctx r) (.var e.callee.ctx this))) → c'.Tied e := by
      intro hgrows₃ hreceiver
      have hgrows₂ := hedits₃.grows.trans hgrows₃
      have hgrows₁ := hedits₂.grows.trans hgrows₂
      refine .inr ⟨hgrows₁.isBuilt hbuilt, fun f hf => ?_⟩
      cases hf.of_grows hgrows₁ hwf₁ hfit₁ hbuilt with
      | arg ha => exact hgrows₂.holds _ ((hargs.holds _).2 (.inr ⟨⟨_, _, ha, rfl⟩, id⟩))
      | result hr hlhs =>
        exact hgrows₃.holds _ ((hresult.holds _).2 (.inr ⟨⟨_, hr, _, hlhs, rfl⟩, id⟩))
      | receiver hk hr ht => exact hreceiver _ _ hk hr ht
    split at hk
    · rename_i r this hkind hr ht
      cases hk
      refine hrest (Edit.grows (D := fun _ => False) (.link _ _)) fun r' this' _ hr' ht' => ?_
      cases hr.symm.trans hr'
      cases ht.symm.trans ht'
      exact ((adds_link c₃ _ _).holds _).2 (.inr ⟨rfl, id⟩)
    · rename_i hno
      obtain rfl : c₃ = c' := congrArg Prod.fst hk
      exact hrest (.refl c₃) fun r this hkind hr ht => absurd ht (hno r this hkind hr)

/-- Edges with the same call site and callee are the same, up to their callers. -/
theorem WellFormed.expects_of_hasEdge (hwf : c.WellFormed) (hfit : c.elements.Fits e)
    (h : c.analysis.calls.hasEdge e.site e.callee = true) : c.Expects ts e := by
  obtain ⟨⟨m, e'⟩, hmem, hsite, hcallee⟩ := (hwf.calls.recorded e.site e.callee).1 h
  obtain ⟨t, -, ht, -, hk⟩ := hfit
  obtain ⟨t', -, ht', -, hk'⟩ := hwf.admits (.edge m e') (.inl hmem)
  simp only at hsite hcallee
  -- both edges are of the kind of their call site
  rw [hsite] at ht'
  cases ht.symm.trans ht'
  obtain ⟨kind, site, callee⟩ := e
  obtain ⟨kind', site', callee'⟩ := e'
  cases hsite
  cases hcallee
  cases hk.trans hk'.symm
  exact ⟨m, .inl (.inl hmem)⟩

theorem record_leads (hwf : c.WellFormed) (hfit : c.elements.Fits e)
    (h : c.record m e = (c', .ok ts)) : Leads (.record m e) c c' ts := by
  have hworks := record_works (D := (Task.record m e).Deeds) ⟨rfl, rfl⟩ hfit
  obtain ⟨c₁, heq, -, -, -, hholds⟩ := record_spec c m e
  cases heq.symm.trans h
  rw [heq] at hworks
  have hedits : Edits (Task.record m e).Deeds c c' := hworks.edits
  have hgrows := hedits.grows
  refine ⟨hgrows, fun _ _ => hedits.due, fun m e he => ⟨m, .inl (hedits.due he)⟩, ?_, nofun, nofun,
    nofun, fun ctx v o s st ho hs _ => .inl ⟨(hedits.holds_points _ o).1 ho, ?_⟩,
    fun m' e' he => (hedits.calls he).imp_right ?_⟩
  · rintro _ _ ⟨⟩
    -- a second edge between the same ends is not recorded, but then there is the first one
    cases hnew : c.analysis.calls.hasEdge e.site e.callee with
    | false => exact ⟨m, .inl (.inl ((hholds _).2 (.inr ⟨hnew, .inl rfl⟩)))⟩
    | true =>
      have hold : c.Expects [] e := hwf.expects_of_hasEdge hfit hnew
      obtain ⟨m', hm' | ⟨m'', e'', hmem, -⟩⟩ := hold
      · exact ⟨m', .inl (hedits.due hm')⟩
      · exact absurd hmem List.not_mem_nil
  · exact (hedits.watchers hs).resolve_right id
  · rintro ⟨rfl, rfl⟩
    simp

/-! ### Items of the worklist -/

/-- What was due is so after an item was taken up, but for what this item brings. -/
theorem due_remain {l₁ l₂ : List WorkItem} {i : WorkItem} {f : Fact}
    (hitems : c.worklist.items = l₁ ++ i :: l₂) (hf : c.Due f) :
    (c.remain (l₁ ++ l₂)).Due f ∨ i.Carries f := by
  rcases hf with hf | ⟨j, hj, hjf⟩
  · exact .inl (.inl ((holds_remain c _ f).2 hf))
  · rw [hitems, List.mem_append, List.mem_cons, ← or_assoc, or_right_comm] at hj
    rcases hj with hj | rfl
    · exact .inl (.inr ⟨j, List.mem_append.2 hj, hjf⟩)
    · exact .inr hjf

/-- Taking up an item that brings no objects, or only such as are there. -/
theorem leads_remain {l₁ l₂ : List WorkItem} {i : WorkItem}
    (hitems : c.worklist.items = l₁ ++ i :: l₂)
    (hpoints : ∀ p o, i.Carries (.points p o) → c.Holds (.points p o))
    (hedges : ∀ m e, i.Carries (.edge m e) → (c.remain (l₁ ++ l₂)).Expects ts e) :
    Leads .next c (c.remain (l₁ ++ l₂)) ts := by
  refine .of_next (grows_remain c _) (fun p o h => ?_) (fun m e h => ?_)
    (fun _ _ _ _ _ ho hs _ => .inl ⟨ho, hs⟩) fun _ _ => .inl
  · refine (due_remain hitems h).elim id fun hc => .inl ((holds_remain c _ _).2 (hpoints p o hc))
  · exact (due_remain hitems h).elim (fun h => ⟨m, .inl h⟩) (hedges m e)

/-- Objects arrive that are new to their pointer. -/
theorem leads_arrive {l₁ l₂ : List WorkItem} {p : Pointer} {os : PointsToSet} {e : Elements}
    (hitems : c.worklist.items = l₁ ++ .objects p os :: l₂)
    (hp : p ∈ c.analysis.heap.pointers.keys)
    (he : ((c.remain (l₁ ++ l₂)).arrive p os (os.diff (c.pointsTo p))).elements.Develops e)
    (hwake : ∀ ctx v, p = .var ctx v → .wake ctx v (os.diff (c.pointsTo p)) ∈ ts) :
    Leads .next c (((c.remain (l₁ ++ l₂)).arrive p os (os.diff (c.pointsTo p))).withElements e)
      ts := by
  set c₁ := c.remain (l₁ ++ l₂)
  set c₂ := c₁.arrive p os (os.diff (c.pointsTo p))
  have hholds : ∀ f, (c₂.withElements e).Holds f ↔ c.Holds f ∨ ∃ o ∈ os, f = .points p o :=
    fun f => (holds_withElements c₂ e f).trans
      ((holds_arrive (c := c₁) hp os _ f).trans (or_congr (holds_remain c _ f) Iff.rfl))
  have hs := c₁.setting_arrive p os (os.diff (c.pointsTo p))
  simp only [setting, Prod.mk.injEq] at hs
  obtain ⟨-, -, -, hwatchers, -⟩ := hs
  have hgrows : c.Grows (c₂.withElements e) :=
    ((grows_remain c (l₁ ++ l₂)).trans (grows_arrive (c := c₁) hp os _)).trans
      (Edit.grows (D := fun _ => False) (.tables he))
  have hdue : ∀ f, c₁.Due f → (c₂.withElements e).Due f := by
    rintro f (hf | ⟨i, hi, hif⟩)
    · exact .inl ((hholds f).2 (.inl ((holds_remain c _ f).1 hf)))
    · refine .inr ⟨i, ?_, hif⟩
      show i ∈ c₂.worklist.items
      rw [items_arrive]
      exact List.mem_append_left _ hi
  refine .of_next hgrows (fun p' o h => ?_) (fun m e h => ?_) ?_ ?_
  · rcases due_remain hitems h with h | h
    · exact hdue _ h
    · cases h with
      | points ho => exact .inl ((hholds _).2 (.inr ⟨o, ho, rfl⟩))
  · rcases due_remain hitems h with h | h
    · exact ⟨m, .inl (hdue _ h)⟩
    · cases h
  · intro ctx v o s st ho hs hst
    replace hs : s ∈ c.watchers.get (.var ctx v) := by
      have hs' : s ∈ c₂.watchers.get (.var ctx v) := hs
      rwa [hwatchers] at hs'
    by_cases hold : c.Holds (.points (.var ctx v) o)
    · exact .inl ⟨hold, hs⟩
    · -- the object is new, so the statements that wait for it are woken up
      obtain ⟨o', ho', heq⟩ := ((hholds _).1 ho).resolve_left hold
      cases heq
      refine .inr (.inr ⟨_, hwake ctx v rfl, rfl, hgrows.watchers _ s hs, ?_⟩)
      exact OrderedSet.mem_diff.2 ⟨ho', hold⟩
  · intro m e he
    rcases (hholds _).1 he with he | ⟨_, _, heq⟩
    · exact .inl he
    · cases heq

theorem next_leads (hwf : c.WellFormed) (h : c.next = (c', .ok ts)) : Leads .next c c' ts := by
  rcases next_spec c with ⟨-, heq⟩ | ⟨l₁, i, l₂, hitems, -, ⟨p, os, rfl, heq⟩ | ⟨m, e, rfl, heq⟩⟩
  · cases heq.symm.trans h
    exact .of_next (.refl c) (fun _ _ => id) (fun m e he => ⟨m, .inl he⟩)
      (fun _ _ _ _ _ ho hs _ => .inl ⟨ho, hs⟩) fun _ _ => .inl
  · rw [heq] at h
    rcases (c.remain (l₁ ++ l₂)).takeObjects_cases p os with ⟨hold, hto⟩ | ⟨⟨o, ho, -⟩, htake⟩
    · cases hto.symm.trans h
      refine leads_remain hitems ?_ ?_
      · rintro p' o ⟨ho⟩
        exact hold o ho
      · rintro m e ⟨⟩
    · have hp := (hwf.admits (.points p o) (due_of_items hitems (.points ho))).1
      rcases htake with ⟨o, x, rfl, hto⟩ | ⟨ctx, v, text, rfl, hto⟩ <;> cases hto.symm.trans h
      · refine leads_arrive hitems hp .refl ?_
        rintro ctx v ⟨⟩
      · refine leads_arrive hitems hp (.tell .refl .trace text) ?_
        rintro ctx' v' ⟨⟩
        simp [remain, pointsTo]
  · rw [heq] at h
    have hfit := hwf.admits (.edge m e) (due_of_items hitems .edge)
    have hpoints : ∀ p o, (WorkItem.edge m e).Carries (.points p o) → c.Holds (.points p o) := by
      rintro p o ⟨⟩
    have hwf₁ := hwf.remain hitems hpoints
    rcases (c.remain (l₁ ++ l₂)).takeEdge_spec m e with ⟨hold, hto⟩ | ⟨-, hto⟩ <;>
      cases hto.symm.trans h
    · refine leads_remain hitems hpoints ?_
      rintro m' e' ⟨⟩
      exact hwf₁.expects_of_hasEdge hfit hold
    · refine leads_remain hitems hpoints ?_
      rintro m' e' ⟨⟩
      exact ⟨m, .inr ⟨m, e, by simp, rfl⟩⟩

/-! ### All tasks -/

/-- A task that does not fail keeps what was promised, and does what it is there for. -/
theorem perform_leads (hwf : c.WellFormed) (ht : t.Sane c) (h : c.perform t = (c', .ok ts)) :
    Leads t c c' ts := by
  by_cases hnext : t = .next
  · subst hnext
    exact next_leads hwf h
  · have hworks := perform_works hwf ht hnext
    rw [h] at hworks
    have hedits : Edits t.Deeds c c' := hworks.edits
    cases t with
    | exec m s injected => exact exec_leads hwf h
    | record m e => exact record_leads hwf ht h
    | next => exact absurd rfl hnext
    | react m s os =>
      refine .of_edits hedits nofun nofun ?_ nofun
      rintro ctx o s' st hs ⟨rfl, rfl, ho⟩
      exact react_served hs h ho
    | dispatch m site o =>
      refine .of_edits hedits nofun nofun ?_ nofun
      rintro ctx o' s st hs ⟨rfl, rfl, lhs, hcall⟩
      cases hs.symm.trans hcall
      exact .inl fun _ => dispatch_resolved hwf hs ht.1 h
    | wake ctx v delta =>
      refine .of_edits hedits nofun nofun ?_ nofun
      rintro ctx' o s st hs ⟨rfl, hmem, ho⟩
      cases h
      -- the statements noted with the pointer come after those of the body
      refine .inr ⟨.react ⟨ctx, v.method⟩ s delta, ?_, rfl, rfl, ho⟩
      exact List.mem_map_of_mem (List.mem_append_right _ hmem)
    | bind e =>
      refine .of_edits hedits nofun nofun nofun ?_
      rintro _ ⟨⟩
      exact bind_tied hwf ht h
    | begin | reach | enter | drain | announce | statistics =>
      exact .of_edits hedits nofun nofun nofun nofun

/-- Objects and the injected statements that wait for them meet, and recorded call edges are bound:
this is done, or a task is there to do it. -/
structure Tended (c : Core) (tasks : List Task) : Prop where
  attended : ∀ ctx v o, c.Holds (.points (.var ctx v) o) → ∀ s ∈ c.watchers.get (.var ctx v),
    ∀ st, c.elements.Has s st → c.Attended tasks ctx o s st
  tied : ∀ m e, c.Holds (.edge m e) → c.Tied e ∨ .bind e ∈ tasks

theorem Tended.step (h : c.Tended (t :: rest)) (hwf : c.WellFormed) (hwf' : c'.WellFormed)
    (hl : Leads t c c' ts) : c'.Tended (ts ++ rest) where
  attended ctx v o ho s hs st hst := by
    rcases hl.watched ctx v o s st ho hs hst with ⟨ho₀, hs₀⟩ | hnew
    · -- the statement was there when it was noted, so it is the same one
      obtain ⟨st₀, hst₀⟩ := hwf.watched _ s hs₀
      cases (hl.grows.elements.grows.has hst₀).symm.trans hst
      exact hl.attended hwf hwf' hst₀ (hwf.admits _ (.inl ho₀)).2
        (h.attended ctx v o ho₀ s hs₀ st hst₀)
    · rcases hnew with hnew | ⟨t', ht', hserves⟩
      · exact .inl (Served.follows (follows_append c' ts rest) hwf' hst
          (hwf'.admits _ (.inl ho)).2 hnew)
      · exact .inr ⟨t', List.mem_append_left _ ht', hserves⟩
  tied m e he := by
    rcases hl.called m e he with he₀ | hbind
    · rcases h.tied m e he₀ with hold | hmem
      · exact .inl (hold.grows hl.grows hwf (hwf.admits (.edge m e) (.inl he₀)))
      · rcases List.mem_cons.1 hmem with rfl | hmem
        · exact .inl (hl.tied e rfl)
        · exact .inr (List.mem_append_right _ hmem)
    · exact .inr (List.mem_append_left _ hbind)

/-- An injected statement was run, or is to be. -/
def Undertakes (c : Core) (tasks : List Task) (m : CtxMethod) (s : StmtId) (st : Stmt) : Prop :=
  c.elements.Has s st ∧ (c.Installed tasks m s st ∨ .exec m s true ∈ tasks)

theorem Undertakes.step (h : c.Undertakes (t :: rest) m s st) (hwf : c.WellFormed)
    (hwf' : c'.WellFormed) (hl : Leads t c c' ts) : c'.Undertakes (ts ++ rest) m s st := by
  obtain ⟨hs, h⟩ := h
  have hs' := hl.grows.elements.grows.has hs
  refine ⟨hs', ?_⟩
  rcases h with h | hmem
  · exact .inl (Installed.follows hl.follows hwf hs h)
  · rcases List.mem_cons.1 hmem with rfl | hmem
    · have hi := hl.installed m s st rfl hs
      exact .inl (Installed.follows (follows_append c' ts rest) hwf' hs' hi)
    · exact .inr (List.mem_append_right _ hmem)

end Core

end PointsTo
