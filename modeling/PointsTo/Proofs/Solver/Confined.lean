import PointsTo.Proofs.Elements.Locality
import PointsTo.Proofs.Solver.Queue

/-!
# Tasks of one method

Most tasks are about the variables of one method in one context, or of a caller and its callee. In
local tables they have effects on methods of `N` only, if they are about methods of `N` themselves:
no method becomes reachable, no call edge is recorded, no object arrives, and what they put on the
worklist is for methods of `N`, or for a callee behind the call edge that leads to it.

* `Core.Confined`: what such tasks leave alone, with one lemma for each operation on the state;
* `Task.AtHome`: statements and call sites of a task are of the method that it is about;
* `Core.perform_confined`: the tasks are confined, whether they fail or not.
-/

namespace PointsTo

/-- The statements and the call sites that a task is about are of its method. -/
def Task.AtHome : Task → Prop
  | .exec m s _ | .react m s _ => s.method = m.method
  | .dispatch m site _ => m = ⟨site.ctx, site.site.method⟩
  | .record m e => m = ⟨e.site.ctx, e.site.site.method⟩
  | _ => True

/-- The tasks that are about a single method, or a caller and its callee. -/
def Task.isMinor : Task → Bool
  | .exec _ _ _ | .react _ _ _ | .dispatch _ _ _ | .wake _ _ _ | .bind _ => true
  | _ => false

/-- What minor tasks can call for when they are about methods of `N`. -/
def Task.Ensues (N : CtxMethod → Prop) : Task → Prop
  | .react m s _ => N m ∧ s.method = m.method
  | .dispatch m site _ => N m ∧ m = ⟨site.ctx, site.site.method⟩
  | .announce (.unresolvedCall _) => True
  | _ => False

theorem Task.Ensues.inTime {N : CtxMethod → Prop} {t : Task} (h : t.Ensues N) : t.InTime [] N := by
  cases t with
  | react | dispatch => exact h.1
  | announce => trivial
  | _ => exact h.elim

theorem Task.Ensues.atHome {N : CtxMethod → Prop} {t : Task} (h : t.Ensues N) : t.AtHome := by
  cases t with
  | react | dispatch => exact h.2
  | announce => trivial
  | _ => exact h.elim

namespace Core

/-- What was found of methods and call edges, and what decides about the further ones. -/
structure Standing where
  methods : OrderedSet CtxMethod
  calls : List (CtxMethod × CtxEdge)
  pairs : OrderedSet (CtxSite × CtxMethod)
  ignored : OrderedSet MethodId
  seen : OrderedSet MethodId

/-- The standing of a state. -/
def standing (c : Core) : Standing where
  methods := c.analysis.calls.methods
  calls := c.analysis.calls.calls
  pairs := c.analysis.calls.pairs
  ignored := c.ignored
  seen := c.seen

theorem standing_addMethod (c : Core) (m : CtxMethod) (seen : OrderedSet MethodId) :
    { c.modifyCalls (·.addMethod m) with seen }.standing =
      { c.standing with methods := c.analysis.calls.methods.insert m, seen } := by
  rw [standing, standing, ← CallGraph.methods_addMethod]
  rfl

/-- The state `c'` comes from `c` by adding things for methods of `N`, where they belong. -/
structure Adheres (N : CtxMethod → Prop) (c c' : Core) : Prop where
  elements : c.elements.Evolves c'.elements
  order_eq : c'.worklist.order = c.worklist.order
  flows : ∀ a b, c'.Holds (.flow a b) → c.Holds (.flow a b) ∨ b.In N
  watchers : ∀ ctx v, ∀ s ∈ c'.watchers.get (.var ctx v),
    s ∈ c.watchers.get (.var ctx v) ∨ s.method = v.method
  queue : ∀ M : CtxMethod → Prop, (∀ m, N m → M m) → Queued M c.worklist.items →
    Queued M c'.worklist.items
  edges : ∀ m e, .edge m e ∈ c'.worklist.items →
    .edge m e ∈ c.worklist.items ∨ m = ⟨e.site.ctx, e.site.site.method⟩

/-- In addition, no method becomes reachable, no call edge is recorded, and no object arrives. -/
structure Confined (N : CtxMethod → Prop) (c c' : Core) : Prop extends Adheres N c c' where
  standing_eq : c'.standing = c.standing
  started_eq : c'.started = c.started
  journal_eq : c'.journal = c.journal
  pointsTo_eq : ∀ p, c'.pointsTo p = c.pointsTo p

variable {N : CtxMethod → Prop} {c c₁ c₂ : Core} {m : CtxMethod} {s : StmtId} {o : Obj}

namespace Adheres

theorem refl (N : CtxMethod → Prop) (c : Core) : Adheres N c c :=
  ⟨.refl, rfl, fun _ _ => .inl, fun _ _ _ => .inl, fun _ _ => id, fun _ _ => .inl⟩

theorem trans (h₁ : Adheres N c c₁) (h₂ : Adheres N c₁ c₂) : Adheres N c c₂ where
  elements := h₁.elements.trans h₂.elements
  order_eq := h₂.order_eq.trans h₁.order_eq
  flows a b h := (h₂.flows a b h).elim (h₁.flows a b) .inr
  watchers ctx v s h := (h₂.watchers ctx v s h).elim (h₁.watchers ctx v s) .inr
  queue M hM h := h₂.queue M hM (h₁.queue M hM h)
  edges m e h := (h₂.edges m e h).elim (h₁.edges m e) .inr

/-- Work on the tables and on whatever has no part in the flow of objects. -/
theorem of_eq (he : c.elements.Evolves c₁.elements) (hf : c₁.flow = c.flow)
    (hw : c₁.watchers = c.watchers) (hi : c₁.worklist = c.worklist) : Adheres N c c₁ := by
  refine ⟨he, hi ▸ rfl, fun a b hab => .inl ?_, fun ctx v s hs => .inl (hw ▸ hs),
    fun M _ hq => hi ▸ hq, fun m e he => .inl (hi ▸ he)⟩
  rwa [Holds, hf] at hab

end Adheres

namespace Confined

theorem refl (N : CtxMethod → Prop) (c : Core) : Confined N c c :=
  ⟨.refl N c, rfl, rfl, rfl, fun _ => rfl⟩

theorem trans (h₁ : Confined N c c₁) (h₂ : Confined N c₁ c₂) : Confined N c c₂ where
  toAdheres := h₁.toAdheres.trans h₂.toAdheres
  standing_eq := h₂.standing_eq.trans h₁.standing_eq
  started_eq := h₂.started_eq.trans h₁.started_eq
  journal_eq := h₂.journal_eq.trans h₁.journal_eq
  pointsTo_eq p := (h₂.pointsTo_eq p).trans (h₁.pointsTo_eq p)

/-! ### Operations on the state -/

theorem withElements (h : Confined N c c₁) {e : Elements} (he : c₁.elements.Evolves e) :
    Confined N c (c₁.withElements e) :=
  h.trans ⟨.of_eq he rfl rfl rfl, rfl, rfl, rfl, fun _ => rfl⟩

theorem tell (h : Confined N c c₁) (level : Level) (text : String) :
    Confined N c (c₁.tell level text) :=
  h.withElements (.tell .refl level text)

theorem lower (h : Confined N c c₁) (m : MethodId) : Confined N c (c₁.lower m).2 :=
  h.withElements (Elements.Evolves.refl.serve (r := .lower m) trivial)

theorem useContext (h : Confined N c c₁) (x : Context) : Confined N c (c₁.useContext x) :=
  h.trans ⟨.of_eq .refl rfl rfl rfl, rfl, rfl, rfl, fun _ => rfl⟩

theorem addObj (h : Confined N c c₁) (o : Obj) (ty : Ty) : Confined N c (c₁.addObj o ty) :=
  h.trans ⟨.of_eq .refl rfl rfl rfl, rfl, rfl, rfl, fun _ => rfl⟩

theorem addPointer (h : Confined N c c₁) (p : Pointer) : Confined N c (c₁.addPointer p) :=
  h.trans ⟨.of_eq .refl rfl rfl rfl, rfl, rfl, rfl, Heap.pointsTo_addPointer _ p⟩

theorem addSite (h : Confined N c c₁) (m : CtxMethod) (s : CtxSite) :
    Confined N c (c₁.modifyCalls (·.addSite m s)) :=
  h.trans ⟨.of_eq .refl rfl rfl rfl, rfl, rfl, rfl, fun _ => rfl⟩

/-- An item may be for the callee of a call edge that is on the worklist before it. -/
theorem push (h : Confined N c c₁) {i : WorkItem}
    (hi : ∀ M : CtxMethod → Prop, (∀ m, N m → M m) →
      (∀ m e, .edge m e ∈ c₁.worklist.items → M e.callee) → ∀ f, i.Carries f → f.In M)
    (home : ∀ m e, i = .edge m e → m = ⟨e.site.ctx, e.site.site.method⟩) :
    Confined N c (c₁.push i) := by
  refine h.trans ⟨⟨.refl, rfl, fun _ _ => .inl, fun _ _ _ => .inl, fun M hM hq => ?_,
    fun m e he => ?_⟩, rfl, rfl, rfl, fun _ => rfl⟩
  · refine hq.append fun M' hM' hcallees j hj => ?_
    rw [List.mem_singleton.1 hj]
    exact hi M' (fun m hm => hM' m (hM m hm)) hcallees
  · rcases List.mem_append.1 he with he | he
    · exact .inl he
    · exact .inr (home m e (List.mem_singleton.1 he).symm)

/-- Objects flow into a pointer of `N`. -/
theorem pushObjects (h : Confined N c c₁) {p : Pointer} (hp : p.In N) (os : PointsToSet) :
    Confined N c (c₁.push (.objects p os)) := by
  refine h.push ?_ nofun
  rintro M hM - f ⟨-⟩
  exact hp.mono hM

theorem link (h : Confined N c c₁) (a : Pointer) {b : Pointer} (hb : b.In N) :
    Confined N c (c₁.link a b) := by
  have hpointers := (h.addPointer a).addPointer b
  unfold Core.link
  simp only
  split
  · exact hpointers
  · have hflow : Confined N c { (c₁.addPointer a).addPointer b with
        flow := ((c₁.addPointer a).addPointer b).flow.addEdge a b } := by
      refine hpointers.trans ⟨⟨.refl, rfl, fun x y hxy => ?_, fun _ _ _ => .inl, fun _ _ => id,
        fun _ _ => .inl⟩, rfl, rfl, rfl, fun _ => rfl⟩
      rcases FlowGraph.hasEdge_addEdge.1 hxy with hxy | ⟨-, rfl⟩
      · exact .inl hxy
      · exact .inr hb
    split
    · exact hflow
    · exact hflow.pushObjects hb _

theorem foldl_link (h : Confined N c c₁) {α : Type} (l : List α) (a : α → Pointer)
    {b : α → Pointer} (hb : ∀ x ∈ l, (b x).In N) :
    Confined N c (l.foldl (fun c x => c.link (a x) (b x)) c₁) := by
  induction l generalizing c₁ with
  | nil => exact h
  | cons x l ih =>
    exact ih (h.link (a x) (hb x List.mem_cons_self)) fun y hy => hb y (List.mem_cons_of_mem x hy)

/-- A statement waits for a variable of its own method. -/
theorem addWatcher (h : Confined N c c₁) {ctx : Context} {v : VarId} (hs : s.method = v.method) :
    Confined N c { c₁ with watchers := c₁.watchers.update (.var ctx v) [] (· ++ [s]) } := by
  refine h.trans ⟨⟨.refl, rfl, fun _ _ => .inl, fun ctx' v' s' hs' => ?_, fun _ _ => id,
    fun _ _ => .inl⟩, rfl, rfl, rfl, fun _ => rfl⟩
  replace hs' : s' ∈ (c₁.watchers.update (.var ctx v) default (· ++ [s])).get (.var ctx' v') := hs'
  rw [Table.get_update_default] at hs'
  split at hs' <;> rename_i heq
  · cases heq
    rcases List.mem_append.1 hs' with hs' | hs'
    · exact .inl hs'
    · rw [List.mem_singleton.1 hs']
      exact .inr hs
  · exact .inl hs'

end Confined

/-! ### Tasks -/

/-- The outcome of a minor task about methods of `N`. -/
structure Outcome.Confined (N : CtxMethod → Prop) (c : Core) (r : Outcome) : Prop where
  state : Core.Confined N c r.1
  ensues : ∀ ts, r.2 = .ok ts → ∀ t ∈ ts, t.Ensues N

theorem Confined.proceed (h : Confined N c c₁) {ts : List Task} (hts : ∀ t ∈ ts, t.Ensues N) :
    Outcome.Confined N c (c₁.proceed ts) :=
  ⟨h, by rintro _ ⟨⟩; exact hts⟩

theorem Confined.done (h : Confined N c c₁) : Outcome.Confined N c (c₁.proceed []) :=
  h.proceed (List.forall_mem_nil _)

/-- A method is lowered first, and that may fail. -/
theorem Confined.lowering (h : Confined N c c₁) {m : MethodId} {k : Core → Outcome}
    (hk : Confined N c (c₁.lower m).2 → Outcome.Confined N c (k (c₁.lower m).2)) :
    Outcome.Confined N c (c₁.lowering m k) := by
  have hlow := h.lower m
  replace hk := hk hlow
  unfold Core.lowering
  cases hl : c₁.lower m with
  | mk r c₂ =>
    rw [hl] at hlow hk
    cases r with
    | ok => exact hk
    | error e => exact ⟨hlow, nofun⟩

theorem Confined.watch (h : Confined N c c₁) (hm : N m) {v : VarId} (hv : v.method = m.method)
    (hs : s.method = m.method) (injected : Bool) :
    Outcome.Confined N c (c₁.watch m v s injected) := by
  have hpointer := h.addPointer (.var m.ctx v)
  set c₂ := c₁.addPointer (.var m.ctx v) with hc₂
  set c₃ := if injected then
    { c₂ with watchers := c₂.watchers.update (.var m.ctx v) [] (· ++ [s]) } else c₂ with hc₃
  have hwatch : Confined N c c₃ := by
    rw [hc₃]
    split
    · exact hpointer.addWatcher (hs.trans hv.symm)
    · exact hpointer
  unfold Core.watch
  simp only [← hc₂, ← hc₃]
  split
  · exact hwatch.done
  · refine hwatch.proceed fun t ht => ?_
    rw [List.mem_singleton.1 ht]
    exact ⟨hm, hs⟩

/-- A call edge from a method of `N`. -/
theorem Confined.call (h : Confined N c c₁) (hm : N m) (kind : CallKind) (site : CtxSite)
    (hsite : m = ⟨site.ctx, site.site.method⟩) (receiver : Option Obj) (callee : MethodId) :
    Confined N c (c₁.call m kind site receiver callee) := by
  refine (h.useContext _).push ?_ ?_
  · rintro M hM - f ⟨⟩
    exact hM m hm
  · rintro _ _ ⟨⟩
    exact hsite

section

variable (he : c.elements.Local) (hm : N m) (hs : s.method = m.method)

include he hm hs

theorem execCall_confined {id : SiteId} (hid : id.method = m.method) (injected : Bool) :
    Outcome.Confined N c (c.execCall m s id injected) := by
  have hsite := (Confined.refl N c).addSite m ⟨m.ctx, id⟩
  have hhere : m = ⟨m.ctx, id.method⟩ := by rw [hid]
  have hreceiver := (he.site id).receiver
  unfold execCall
  simp only
  split
  case h_1 | h_2 =>
    exact (hsite.call hm _ ⟨m.ctx, id⟩ hhere _ _).done
  case h_3 r _ hr | h_4 r _ hr =>
    exact hsite.watch hm ((hreceiver r hr).trans hid) hs injected
  case h_5 | h_6 => exact hsite.done
  case h_7 =>
    refine (hsite.tell _ _).proceed fun t ht => ?_
    rw [List.mem_singleton.1 ht]
    trivial

theorem exec_confined (injected : Bool) : Outcome.Confined N c (c.exec m s injected) := by
  unfold exec
  cases hst : (c.elements.stmt? s).map PlacedStmt.stmt with
  | none => exact (Confined.refl N c).done
  | some st =>
    have hlocal : st.LocalTo s.method := he.has hst
    rw [hs] at hlocal
    cases st with
    | alloc lhs ty =>
      have hobject := ((Confined.refl N c).useContext (c.policy.heapContext m.ctx)).addObj
        ⟨s, c.policy.heapContext m.ctx⟩ ty
      exact ((hobject.addPointer _).pushObjects (Pointer.in_var hm hlocal) _).done
    | assign lhs rhs =>
      exact ((Confined.refl N c).link _ (Pointer.in_var hm hlocal.1)).done
    | load lhs base f => exact (Confined.refl N c).watch hm hlocal.2 hs injected
    | store base f rhs => exact (Confined.refl N c).watch hm hlocal.1 hs injected
    | call id lhs => exact execCall_confined he hm hs hlocal.1 injected

theorem react_confined (os : PointsToSet) : Outcome.Confined N c (c.react m s os) := by
  unfold react
  cases hst : (c.elements.stmt? s).map PlacedStmt.stmt with
  | none => exact (Confined.refl N c).done
  | some st =>
    have hlocal : st.LocalTo s.method := he.has hst
    rw [hs] at hlocal
    have hpointer := fun v => (Confined.refl N c).addPointer (.var m.ctx v)
    cases st with
    | alloc | assign => exact (Confined.refl N c).done
    | load lhs base f =>
      have hlhs : (Pointer.var m.ctx lhs).In N := Pointer.in_var hm hlocal.1
      exact ((hpointer lhs).foldl_link os.toList _ fun _ _ => hlhs).done
    | store base f rhs =>
      exact ((hpointer rhs).foldl_link os.toList _ (b := (.field · f)) fun _ _ => trivial).done
    | call id lhs =>
      simp only
      split
      · refine (Confined.refl N c).proceed fun t ht => ?_
        obtain ⟨o, -, rfl⟩ := List.mem_map.1 ht
        exact ⟨hm, by rw [hlocal.1]⟩
      · exact (Confined.refl N c).done

end

/-- The edge is put on the worklist before the object that the callee receives. -/
theorem dispatch_confined (he : c.elements.Local) (hm : N m) {site : CtxSite}
    (hsite : m = ⟨site.ctx, site.site.method⟩) (o : Obj) :
    Outcome.Confined N c (c.dispatch m site o) := by
  unfold dispatch
  simp only
  set found := c.elements.dispatch (c.analysis.heap.typeOf o)
    (c.program.subsignature (c.elements.site site.site).target)
  have hfound : Confined N c (c.withElements found.2) :=
    (Confined.refl N c).withElements (Elements.Evolves.refl.serve (r := .dispatch _ _) trivial)
  cases found.1 with
  | none => exact ⟨hfound, nofun⟩
  | some callee =>
    simp only
    set c₁ := (c.withElements found.2).call m (c.elements.site site.site).kind site (some o) callee
      with hc₁
    have hcall : Confined N c c₁ := hfound.call hm _ site hsite _ callee
    -- the edge to the callee is on the worklist now, and lowering leaves it there
    obtain ⟨e, hedge, hcallee⟩ : ∃ e, .edge m e ∈ c₁.worklist.items ∧
        e.callee = ⟨c₁.policy.calleeContext site.ctx site.site (some o), callee⟩ :=
      ⟨_, List.mem_append_right _ List.mem_cons_self, rfl⟩
    split
    · exact hcall.done
    · refine hcall.lowering fun hlow => ?_
      have hlocal := hlow.elements.local he
      split
      · exact hlow.done
      · rename_i this hthis
        refine ((hlow.addPointer _).push ?_ (by rintro _ _ ⟨⟩)).done
        rintro M - hcallees f ⟨-⟩
        refine Pointer.in_var (N := M) (hcallee ▸ hcallees m e hedge) ?_
        exact (hlocal.home callee).this this hthis

theorem wake_confined (he : c.elements.Local) {ctx : Context} {v : VarId}
    (hw : ∀ s ∈ c.watchers.get (.var ctx v), s.method = v.method) (hm : N ⟨ctx, v.method⟩)
    (delta : PointsToSet) : Outcome.Confined N c (c.wake ctx v delta) := by
  refine (Confined.refl N c).proceed fun t ht => ?_
  obtain ⟨s, hs, rfl⟩ := List.mem_map.1 ht
  exact ⟨hm, (List.mem_append.1 hs).elim he.var (hw s)⟩

theorem Confined.bindArgs (h : Confined N c c₁) (x y : Context) (args : List (Option VarId))
    (params : List (Option VarId)) (hp : ∀ v, some v ∈ params → (Pointer.var y v).In N) :
    Confined N c (c₁.bindArgs x y args params) := by
  unfold Core.bindArgs
  have hzip : ∀ z ∈ args.zip params, ∀ v, z.2 = some v → (Pointer.var y v).In N :=
    fun z hz v hv => hp v (hv ▸ (List.of_mem_zip (a := z.1) (b := z.2) hz).2)
  generalize args.zip params = l at hzip
  induction l generalizing c₁ with
  | nil => exact h
  | cons z l ih =>
    have hrest := fun z' hz' => hzip z' (List.mem_cons_of_mem z hz')
    rw [List.foldl_cons]
    match z, hzip with
    | (some a, some v), hzip => exact ih (h.link _ (hzip _ List.mem_cons_self v rfl)) hrest
    | (none, _), _ => exact ih h hrest
    | (some a, none), _ => exact ih h hrest

theorem Confined.bindResult (h : Confined N c c₁) (x y : Context) (returns : List VarId)
    (result : Option VarId) (hr : ∀ v, result = some v → (Pointer.var x v).In N) :
    Confined N c (c₁.bindResult x y returns result) := by
  unfold Core.bindResult
  cases result with
  | none => exact h
  | some lhs => exact (h.addPointer _).foldl_link returns _ fun _ _ => hr lhs rfl

theorem bind_confined (he : c.elements.Local) (hsound : c.elements.Sound) {e : CtxEdge}
    (hcaller : N ⟨e.site.ctx, e.site.site.method⟩) (hcallee : N e.callee) :
    Outcome.Confined N c (c.bind e) := by
  unfold bind
  split
  · exact (Confined.refl N c).done
  · refine (Confined.refl N c).lowering fun hlow => ?_
    set c₁ := (c.lower e.callee.method).2
    have hlocal := hlow.elements.local he
    have hcode := hlocal.home e.callee.method
    simp only
    have hargs := hlow.bindArgs e.site.ctx e.callee.ctx (c₁.elements.site e.site.site).args
      (c₁.elements.code e.callee.method).params
      fun v hv => Pointer.in_var hcallee (hcode.params v hv)
    set c₂ := c₁.bindArgs e.site.ctx e.callee.ctx (c₁.elements.site e.site.site).args
      (c₁.elements.code e.callee.method).params
    have hresult := hargs.bindResult e.site.ctx e.callee.ctx
      (c₁.elements.code e.callee.method).returns (c₂.elements.result? e.site.site)
      fun v hv => Pointer.in_var (m := ⟨e.site.ctx, e.site.site.method⟩) hcaller
        ((hargs.elements.local he).result (hargs.elements.develops.sound hsound) hv)
    split
    · rename_i this _ _ hthis
      exact (hresult.link _ (Pointer.in_var hcallee (hcode.this this hthis))).done
    · exact hresult.done

/-- In local tables, minor tasks about methods of `N` are confined to them. -/
theorem perform_confined (he : c.elements.Local) (hsound : c.elements.Sound)
    (hw : ∀ ctx v, ∀ s ∈ c.watchers.get (.var ctx v), s.method = v.method) {t : Task}
    (hminor : t.isMinor = true) (hN : t.InTime [] N) (hhome : t.AtHome) :
    Outcome.Confined N c (c.perform t) := by
  cases t with
  | exec m s injected => exact exec_confined he hN hhome injected
  | react m s os => exact react_confined he hN hhome os
  | dispatch m site o => exact dispatch_confined he hN hhome o
  | wake ctx v delta => exact wake_confined he (hw ctx v) hN delta
  | bind e => exact bind_confined he hsound hN.1 hN.2
  | _ => cases hminor

end Core

end PointsTo
