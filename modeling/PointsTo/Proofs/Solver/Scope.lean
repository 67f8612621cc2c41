import PointsTo.Proofs.Propagation
import PointsTo.Proofs.Solver.Footprint

/-!
# Where the contexts of a run come from

Without plugins, every context in a state was chosen by the policy, from the empty context of the
entries on. So a property of contexts that the choices of the policy keep holds everywhere.

* `Scope`: a property for the contexts of methods and one for those of objects, and
  `Scope.Respects`: a policy keeps them;
* `Core.Within`: the contexts in a state have these properties, and so have those on the worklist;
* `Core.Within.perform` and `Task.Within.of_callsFor`: a task that is about such contexts keeps
  this, and the tasks that it calls for are about such contexts, too;
* `Solver.within_after`: it is so after any calls of a solver without plugins.
-/

namespace PointsTo

/-- What is asked of the contexts of methods, and of those of objects. -/
structure Scope where
  method : Context → Prop
  heap : Context → Prop

variable {S : Scope}

/-- The choices of a policy stay in the scope. -/
structure Scope.Respects (S : Scope) (policy : ContextPolicy) : Prop where
  entry : S.method []
  callee : ∀ c site receiver, S.method c → (∀ o, receiver = some o → S.heap o.heap) →
    S.method (policy.calleeContext c site receiver)
  object : ∀ c, S.method c → S.heap (policy.heapContext c)

/-- The context of the pointer is in the scope. -/
def Pointer.Within (S : Scope) : Pointer → Prop
  | .var c _ => S.method c
  | .field o _ => S.heap o.heap

/-- The contexts in a fact are in the scope. -/
def Fact.Within (S : Scope) : Fact → Prop
  | .reach m => S.method m.ctx
  | .site m s => S.method m.ctx ∧ S.method s.ctx
  | .edge m e => S.method m.ctx ∧ S.method e.site.ctx ∧ S.method e.callee.ctx
  | .points p o => p.Within S ∧ S.heap o.heap
  | .flow a b => a.Within S ∧ b.Within S

/-- The contexts that a task is about are in the scope. -/
def Task.Within (S : Scope) : Task → Prop
  | .reach m | .enter m | .exec m _ _ => S.method m.ctx
  | .react m _ os => S.method m.ctx ∧ ∀ o ∈ os, S.heap o.heap
  | .dispatch m s o => S.method m.ctx ∧ S.method s.ctx ∧ S.heap o.heap
  | .wake ctx _ os => S.method ctx ∧ ∀ o ∈ os, S.heap o.heap
  | .record m e => S.method m.ctx ∧ S.method e.site.ctx ∧ S.method e.callee.ctx
  | .bind e => S.method e.site.ctx ∧ S.method e.callee.ctx
  | .begin | .next | .drain | .announce _ | .statistics => True

namespace Core

/-- The contexts in a state are in the scope, and its policy keeps to it. -/
structure Within (S : Scope) (c : Core) : Prop where
  respects : S.Respects c.policy
  facts : ∀ f, c.Due f → f.Within S
  objs : ∀ o ∈ c.analysis.heap.objs.keys, S.heap o.heap
  pointers : ∀ p ∈ c.analysis.heap.pointers.keys, p.Within S
  contexts : ∀ x ∈ c.analysis.contexts.set, S.method x ∨ S.heap x

variable {c c₁ : Core} {m : CtxMethod} {F : Fact → Prop}

namespace Within

/-- Facts in the scope are added, and pointers and contexts in the scope may be. -/
theorem adds (h : c.Within S) (ha : Adds F c c₁) (hF : ∀ f, F f → f.Within S)
    (hs : c₁.setting = c.setting)
    (hpointers : ∀ p ∈ c₁.analysis.heap.pointers.keys,
      p ∈ c.analysis.heap.pointers.keys ∨ p.Within S)
    (hcontexts : ∀ x ∈ c₁.analysis.contexts.set,
      x ∈ c.analysis.contexts.set ∨ S.method x ∨ S.heap x) : c₁.Within S := by
  simp only [setting, Prod.mk.injEq] at hs
  obtain ⟨hpolicy, -, -, -, -, hobjs⟩ := hs
  constructor
  case respects => exact hpolicy ▸ h.respects
  case facts =>
    intro f hf
    rcases ha.due_cases hf with hf | hf | ⟨a, b, o, rfl, hab, ho⟩
    · exact h.facts f hf
    · exact hF f hf
    · -- an object goes along a new edge, and was in the scope before
      exact ⟨(hF _ hab).2, (h.facts _ (.inl ho)).2⟩
  case objs => exact hobjs ▸ h.objs
  case pointers => exact fun p hp => (hpointers p hp).elim (h.pointers p) id
  case contexts => exact fun x hx => (hcontexts x hx).elim (h.contexts x) id

/-- The part of a state that contexts are in stays as it is. -/
theorem of_eq (h : c.Within S) (hpolicy : c₁.policy = c.policy)
    (hheap : c₁.analysis.heap = c.analysis.heap)
    (hcontexts : c₁.analysis.contexts = c.analysis.contexts)
    (hdue : ∀ f, c₁.Due f → c.Due f) : c₁.Within S :=
  ⟨hpolicy ▸ h.respects, fun f hf => h.facts f (hdue f hf), hheap ▸ h.objs, hheap ▸ h.pointers,
    hcontexts ▸ h.contexts⟩

/-! ### Operations on the state -/

theorem withElements (h : c.Within S) (e : Elements) : (c.withElements e).Within S :=
  h.of_eq rfl rfl rfl fun f hf => hf.imp_left (holds_withElements c e f).1

theorem tell (h : c.Within S) (level : Level) (text : String) : (c.tell level text).Within S :=
  h.withElements _

theorem saw (h : c.Within S) (seen : OrderedSet MethodId) : Within S { c with seen } :=
  h.of_eq rfl rfl rfl fun f hf => by cases f <;> exact hf

theorem push (h : c.Within S) {i : WorkItem} (hi : ∀ f, i.Carries f → f.Within S) :
    (c.push i).Within S :=
  h.adds (adds_push c i) hi rfl (fun _ => .inl) fun _ => .inl

theorem useContext (h : c.Within S) {x : Context} (hx : S.method x ∨ S.heap x) :
    (c.useContext x).Within S := by
  refine h.adds (adds_useContext c x) (fun _ => False.elim) rfl (fun _ => .inl) fun y hy => ?_
  rcases OrderedSet.mem_insert.1 hy with hy | rfl
  · exact .inl hy
  · exact .inr hx

theorem addObj (h : c.Within S) {o : Obj} (ho : S.heap o.heap) (ty : Ty) :
    (c.addObj o ty).Within S := by
  refine { h with facts := fun f hf => h.facts f ?_, objs := fun o' ho' => ?_ }
  · cases f <;> exact hf
  · rcases Table.mem_keys_insert.1 ho' with ho' | rfl
    · exact h.objs o' ho'
    · exact ho

theorem addPointer (h : c.Within S) {p : Pointer} (hp : p.Within S) :
    (c.addPointer p).Within S := by
  refine h.adds (adds_addPointer c p) (fun _ => False.elim) (c.setting_addPointer p)
    (fun p' hp' => ?_) fun _ => .inl
  rcases Heap.mem_keys_addPointer.1 hp' with hp' | rfl
  · exact .inl hp'
  · exact .inr hp

theorem send (h : c.Within S) {p : Pointer} (hp : p.Within S) {os : PointsToSet}
    (hos : ∀ o ∈ os, S.heap o.heap) : (c.push (.objects p os)).Within S := by
  refine h.push ?_
  rintro f ⟨ho⟩
  exact ⟨hp, hos _ ho⟩

theorem link (h : c.Within S) {a b : Pointer} (ha : a.Within S) (hb : b.Within S) :
    (c.link a b).Within S := by
  have hpointers := (h.addPointer ha).addPointer hb
  refine h.adds (adds_link c a b) ?_ (c.setting_link a b) (fun p hp => .inr ?_) fun x hx => ?_
  · rintro f rfl
    exact ⟨ha, hb⟩
  · rw [analysis_link] at hp
    exact hpointers.pointers p hp
  · rw [analysis_link] at hx
    exact .inl hx

theorem foldl_link (h : c.Within S) {α : Type} (l : List α) {a b : α → Pointer}
    (ha : ∀ x ∈ l, (a x).Within S) (hb : ∀ x ∈ l, (b x).Within S) :
    (l.foldl (fun c x => c.link (a x) (b x)) c).Within S := by
  induction l generalizing c with
  | nil => exact h
  | cons x l ih =>
    obtain ⟨hax, hal⟩ := List.forall_mem_cons.1 ha
    obtain ⟨hbx, hbl⟩ := List.forall_mem_cons.1 hb
    exact ih (h.link hax hbx) hal hbl

theorem addMethod (h : c.Within S) (hm : S.method m.ctx) :
    (c.modifyCalls (·.addMethod m)).Within S := by
  refine h.adds (adds_addMethod c m) ?_ rfl (fun _ => .inl) fun _ => .inl
  rintro f rfl
  exact hm

theorem addEntry (h : c.Within S) (hm : S.method m.ctx) :
    (c.modifyCalls (·.addEntry m)).Within S := by
  refine h.adds (adds_addEntry c m) ?_ rfl (fun _ => .inl) fun _ => .inl
  rintro f rfl
  exact hm

theorem addSite (h : c.Within S) (hm : S.method m.ctx) (id : SiteId) :
    (c.modifyCalls (·.addSite m ⟨m.ctx, id⟩)).Within S := by
  refine h.adds (adds_addSite c m _) ?_ rfl (fun _ => .inl) fun _ => .inl
  rintro f rfl
  exact ⟨hm, hm⟩

theorem addEdge (h : c.Within S) {e : CtxEdge} (he : (Fact.edge m e).Within S) :
    (c.modifyCalls (·.addEdge m e)).Within S := by
  refine { h with facts := fun f hf => ?_ }
  rcases hf with hf | hf
  · rcases (c.holds_addEdge m e f).1 hf with hf | ⟨-, rfl | rfl | rfl⟩
    · exact h.facts f (.inl hf)
    · exact he
    · exact he.1
    · exact he.2.2
  · exact h.facts f (.inr hf)

/-- The objects of a pointer are in the scope. -/
theorem heap_of_mem (h : c.Within S) {p : Pointer} {o : Obj} (ho : o ∈ c.pointsTo p) :
    S.heap o.heap :=
  (h.facts (.points p o) (.inl ho)).2

/-! ### Tasks -/

theorem proceed (h : c.Within S) (ts : List Task) : (c.proceed ts).1.Within S := h

theorem begin (h : c.Within S) : c.begin.1.Within S := by
  unfold Core.begin
  split
  · exact h
  · exact h.of_eq rfl rfl rfl fun f hf => by cases f <;> exact hf

theorem lowering (h : c.Within S) {m : MethodId} {k : Core → Outcome}
    (hk : (c.lower m).2.Within S → (k (c.lower m).2).1.Within S) :
    (c.lowering m k).1.Within S := by
  have hlow : (c.lower m).2.Within S := h.withElements _
  replace hk := hk hlow
  unfold Core.lowering
  split <;> rename_i heq <;> rw [heq] at hlow hk
  · exact hk
  · exact hlow

theorem reach (h : c.Within S) (hm : S.method m.ctx) : (c.reach m).1.Within S := by
  have hadd := h.addMethod hm
  unfold Core.reach
  split
  · exact h
  · simp only
    split
    · exact hadd.tell _ _
    · refine hadd.lowering fun hlow => ?_
      split
      · exact hlow
      · exact ((hlow.saw _).tell _ _).proceed _

theorem watch (h : c.Within S) (hm : S.method m.ctx) (v : VarId) (s : StmtId) (injected : Bool) :
    (c.watch m v s injected).1.Within S := by
  have hpointer : (c.addPointer (.var m.ctx v)).Within S := h.addPointer (p := .var m.ctx v) hm
  have hreact : ∀ (c₁ : Core) (os : PointsToSet), c₁.Within S →
      (if os.isEmpty then c₁.proceed [] else c₁.proceed [.react m s os]).1.Within S := by
    intro c₁ os h₁
    split <;> exact h₁
  refine hreact _ _ ?_
  cases injected with
  | false => exact hpointer
  | true => exact hpointer.of_eq rfl rfl rfl fun f hf => by cases f <;> exact hf

/-- A call edge leads to a context that the policy chooses. -/
theorem call (h : c.Within S) (hm : S.method m.ctx) {s : CtxSite} (hs : S.method s.ctx)
    {receiver : Option Obj} (hr : ∀ o, receiver = some o → S.heap o.heap) (kind : CallKind)
    (callee : MethodId) : (c.call m kind s receiver callee).Within S := by
  have hctx := h.respects.callee s.ctx s.site receiver hs hr
  refine (h.useContext (.inl hctx)).push ?_
  rintro f ⟨⟩
  exact ⟨hm, hs, hctx⟩

theorem execCall (h : c.Within S) (hm : S.method m.ctx) (s : StmtId) (id : SiteId)
    (injected : Bool) : (c.execCall m s id injected).1.Within S := by
  have hsite := h.addSite hm id
  have hnone : ∀ o : Obj, none = some o → S.heap o.heap := nofun
  unfold Core.execCall
  simp only
  split
  case h_1 | h_2 => exact hsite.call (s := ⟨m.ctx, id⟩) hm hm hnone _ _
  case h_3 | h_4 => exact hsite.watch hm _ s injected
  case h_5 | h_6 => exact hsite
  case h_7 => exact hsite.tell _ _

theorem exec (h : c.Within S) (hm : S.method m.ctx) (s : StmtId) (injected : Bool) :
    (c.exec m s injected).1.Within S := by
  unfold Core.exec
  split
  case h_1 => exact h
  case h_2 lhs ty _ =>
    -- the object is made in the context that the policy chooses
    have hheap := h.respects.object m.ctx hm
    have hobj := (h.useContext (.inr hheap)).addObj (o := ⟨s, _⟩) hheap ty
    refine (hobj.addPointer (p := .var m.ctx lhs) hm).send (p := .var m.ctx lhs) hm fun o ho => ?_
    rw [OrderedSet.mem_singleton.1 ho]
    exact hheap
  case h_3 => exact h.link (a := .var m.ctx _) (b := .var m.ctx _) hm hm
  case h_4 | h_5 => exact h.watch hm _ s injected
  case h_6 => exact h.execCall hm s _ injected

theorem react (h : c.Within S) (hm : S.method m.ctx) (s : StmtId) {os : PointsToSet}
    (hos : ∀ o ∈ os, S.heap o.heap) : (c.react m s os).1.Within S := by
  have hpointer : ∀ v, (c.addPointer (.var m.ctx v)).Within S := fun v =>
    h.addPointer (p := .var m.ctx v) hm
  unfold Core.react
  split
  case h_1 => exact (hpointer _).foldl_link os.toList hos fun _ _ => hm
  case h_2 => exact (hpointer _).foldl_link os.toList (fun _ _ => hm) hos
  case h_3 => split <;> exact h
  case h_4 | h_5 | h_6 => exact h

theorem dispatch (h : c.Within S) (hm : S.method m.ctx) {s : CtxSite} (hs : S.method s.ctx)
    {o : Obj} (ho : S.heap o.heap) : (c.dispatch m s o).1.Within S := by
  have hreceiver : ∀ o', some o = some o' → S.heap o'.heap := by
    rintro _ ⟨⟩
    exact ho
  unfold Core.dispatch
  simp only
  split
  · exact h.withElements _
  · rename_i callee _
    have hcall := fun e => (h.withElements e).call hm hs hreceiver
    split
    · exact hcall _ _ callee
    · refine (hcall _ _ callee).lowering fun hlow => ?_
      split
      · exact hlow
      · have hctx := hlow.respects.callee s.ctx s.site (some o) hs hreceiver
        refine (hlow.addPointer (p := .var _ _) hctx).send (p := .var _ _) hctx fun o' ho' => ?_
        rw [OrderedSet.mem_singleton.1 ho']
        exact ho

theorem bindArgs (h : c.Within S) {x y : Context} (hx : S.method x) (hy : S.method y)
    (args params : List (Option VarId)) : (c.bindArgs x y args params).Within S := by
  unfold Core.bindArgs
  induction args.zip params generalizing c with
  | nil => exact h
  | cons z l ih =>
    refine ih ?_
    obtain ⟨_ | a, _ | p⟩ := z
    case some.some => exact h.link (a := .var x a) (b := .var y p) hx hy
    all_goals exact h

theorem bindResult (h : c.Within S) {x y : Context} (hx : S.method x) (hy : S.method y)
    (returns : List VarId) (result : Option VarId) :
    (c.bindResult x y returns result).Within S := by
  unfold Core.bindResult
  split
  · exact h
  · exact (h.addPointer (p := .var x _) hx).foldl_link returns (fun _ _ => hy) fun _ _ => hx

theorem bind (h : c.Within S) {e : CtxEdge} (hx : S.method e.site.ctx)
    (hy : S.method e.callee.ctx) : (c.bind e).1.Within S := by
  unfold Core.bind
  split
  · exact h
  · refine h.lowering fun hlow => ?_
    have hresult := fun args params => (hlow.bindArgs hx hy args params).bindResult hx hy
    simp only
    split
    · exact ((hresult _ _ _ _).link (a := .var _ _) (b := .var _ _) hx hy).proceed _
    · exact (hresult _ _ _ _).proceed _

/-- An item of the worklist is taken away. -/
theorem remain (h : c.Within S) {items : List WorkItem}
    (hitems : ∀ i ∈ items, i ∈ c.worklist.items) : (c.remain items).Within S := by
  refine h.of_eq rfl rfl rfl fun f hf => hf.imp (holds_remain c items f).1 ?_
  rintro ⟨i, hi, hif⟩
  exact ⟨i, hitems i hi, hif⟩

theorem extend (h : c.Within S) {p : Pointer} {os : PointsToSet} (hp : p.Within S)
    (hos : ∀ o ∈ os, S.heap o.heap) : (c.extend p os).Within S := by
  refine { h with facts := ?_, pointers := ?_ }
  · rintro f (hf | hf)
    · cases f with
      | points p' o =>
        rcases Heap.mem_pointsTo_extend.1 hf with ho | ⟨⟨rfl, -⟩, ho⟩
        · exact h.facts (.points p' o) (.inl ho)
        · exact ⟨hp, hos o ho⟩
      | _ => exact h.facts _ (.inl hf)
    · exact h.facts f (.inr hf)
  · intro p' hp'
    replace hp' : p' ∈ (c.analysis.heap.pointers.modify p (·.union os)).keys := hp'
    rw [Table.keys_modify] at hp'
    exact h.pointers p' hp'

theorem foldl_send (h : c.Within S) {l : List Pointer} (hl : ∀ p ∈ l, p.Within S)
    {os : PointsToSet} (hos : ∀ o ∈ os, S.heap o.heap) :
    (l.foldl (fun c p => c.push (.objects p os)) c).Within S := by
  induction l generalizing c with
  | nil => exact h
  | cons p l ih =>
    obtain ⟨hp, hl⟩ := List.forall_mem_cons.1 hl
    exact ih (h.send hp hos) hl

theorem takeObjects (h : c.Within S) {p : Pointer} {os : PointsToSet}
    (hpoints : ∀ o ∈ os, (Fact.points p o).Within S) : (c.takeObjects p os).1.Within S := by
  rcases c.takeObjects_cases p os with ⟨-, heq⟩ | ⟨⟨o, ho, -⟩, htake⟩
  · rw [heq]
    exact h
  · have hp : p.Within S := (hpoints o ho).1
    have hos : ∀ o ∈ os, S.heap o.heap := fun o ho => (hpoints o ho).2
    -- the objects go on to the ends of edges, which are in the scope
    have hsuccs : ∀ b ∈ (c.flow.succsOf p).toList, b.Within S := fun b hb =>
      (h.facts (.flow p b) (.inl (FlowGraph.hasEdge_iff.2 hb))).2
    have harrive : (c.arrive p os (os.diff (c.pointsTo p))).Within S :=
      (h.extend hp hos).foldl_send hsuccs fun o ho => hos o (OrderedSet.mem_diff.1 ho).1
    rcases htake with ⟨o, x, rfl, heq⟩ | ⟨ctx, v, text, rfl, heq⟩ <;> rw [heq]
    · exact harrive
    · exact harrive.tell _ _

theorem next (h : c.Within S) : c.next.1.Within S := by
  rcases next_spec c with ⟨-, heq⟩ | ⟨l₁, i, l₂, hitems, -, hrest⟩
  · rw [heq]
    exact h
  · have hremain : (c.remain (l₁ ++ l₂)).Within S := h.remain fun i hi => by
      rw [hitems]
      exact List.mem_append.2 ((List.mem_append.1 hi).imp_right (List.mem_cons_of_mem _))
    rcases hrest with ⟨p, os, rfl, heq⟩ | ⟨m, e, rfl, heq⟩ <;> rw [heq]
    · exact hremain.takeObjects fun o ho => h.facts _ (due_of_items hitems (.points ho))
    · rcases (c.remain (l₁ ++ l₂)).takeEdge_spec m e with ⟨-, heq⟩ | ⟨-, heq⟩ <;>
        rw [heq] <;> exact hremain

theorem statistics (h : c.Within S) : c.statistics.Within S := by
  unfold Core.statistics
  repeat refine Within.tell ?_ _ _
  exact h

/-- A task that is about contexts in the scope keeps the state there, whether it fails or not. -/
theorem perform (h : c.Within S) {t : Task} (ht : t.Within S) : (c.perform t).1.Within S := by
  cases t with
  | begin => exact h.begin
  | reach m => exact h.reach ht
  | enter m => exact h.addEntry ht
  | exec m s injected => exact h.exec ht s injected
  | react m s os => exact h.react ht.1 s ht.2
  | dispatch m s o => exact h.dispatch ht.1 ht.2.1 ht.2.2
  | next => exact h.next
  | drain =>
    obtain ⟨ts, heq, -⟩ := drain_spec c
    show c.drain.1.Within S
    rw [heq]
    exact h
  | record m e => exact (h.addEdge ht).tell _ _
  | bind e => exact h.bind ht.1 ht.2
  | statistics => exact h.statistics
  | wake | announce => exact h

end Within

end Core

/-- A task that is about contexts in the scope calls for such tasks. -/
theorem Task.Within.of_callsFor {c : Core} (h : c.Within S) {t t' : Task} (ht : t.Within S)
    (hcall : c.CallsFor t t') : t'.Within S := by
  cases hcall with
  | start | unresolved => trivial
  | entry | list => exact h.respects.entry
  | @arrival m t' _ _ ht' =>
    simp only [Core.arrival, Core.introduction, List.mem_append, List.mem_map,
      List.mem_singleton] at ht'
    rcases ht' with (ht' | ⟨s, -, rfl⟩) | rfl
    · split at ht'
      · exact absurd ht' List.not_mem_nil
      · rcases List.mem_cons.1 ht' with rfl | ht'
        · trivial
        · obtain ⟨s, -, rfl⟩ := List.mem_map.1 ht'
          trivial
    · exact ht
    · trivial
  | apply => exact ⟨ht, fun o => h.heap_of_mem⟩
  | dispatch _ _ ho => exact ⟨ht.1, ht.1, ht.2 _ ho⟩
  | wake => exact ht
  | @objects ctx v os t' hi ht' hnew =>
    have hpoints : ∀ o ∈ os, (Fact.points (.var ctx v) o).Within S := fun o ho =>
      h.facts _ (.inr ⟨_, hi, .points ho⟩)
    simp only [Core.onward, List.mem_cons, List.not_mem_nil, or_false] at ht'
    rcases ht' with rfl | rfl
    · trivial
    · obtain ⟨o, ho, -⟩ := hnew
      exact ⟨(hpoints o ho).1, fun o' ho' => (hpoints o' (OrderedSet.mem_diff.1 ho').1).2⟩
  | edge hi ht' =>
    have hedge := h.facts _ (.inr ⟨_, hi, .edge⟩)
    rcases ht' with rfl | rfl
    · exact hedge.2.2
    · exact hedge
  | drain ht' => rcases ht' with rfl | rfl <;> trivial
  | record ht' =>
    rcases ht' with rfl | rfl
    · trivial
    · exact ht.2

namespace Solver

variable {s : Solver .idle}

theorem settle_within (h : s.core.Within S) {agenda : List Task}
    (hagenda : ∀ t ∈ agenda, t.Within S) (fuel : Nat) :
    (s.settle fuel agenda).1.core.Within S := by
  let I : Core → List Task → Prop := fun c ts => c.Within S ∧ ∀ t ∈ ts, t.Within S
  have hok : ∀ c t rest ts, I c (t :: rest) → (c.perform t).2 = .ok ts →
      I (c.perform t).1 (ts ++ rest) := by
    intro c t rest ts hI hts
    obtain ⟨ht, hrest⟩ := List.forall_mem_cons.1 hI.2
    refine ⟨hI.1.perform ht, fun t' ht' => ?_⟩
    rcases List.mem_append.1 ht' with ht' | ht'
    · exact .of_callsFor hI.1 ht (Core.perform_callsFor c t ts hts t' ht')
    · exact hrest t' ht'
  have hrun := settle_invariant (s := s) fuel (E := Core.Within S) hok
    (fun c t rest e hI _ => hI.1.perform (hI.2 t List.mem_cons_self)) ⟨h, hagenda⟩
  split at hrun
  · exact hrun.1
  · exact hrun
  · exact hrun.choose_spec.1

theorem within_create {policy : ContextPolicy} (h : S.Respects policy) (e : Elements)
    (journal : List String) (entries : List MethodId) (order : WorklistOrder) :
    (create .idle e journal entries policy order).core.Within S where
  respects := h
  facts f hf := absurd hf (not_due_create .idle e journal entries policy order f)
  objs := List.forall_mem_nil _
  pointers := List.forall_mem_nil _
  contexts x hx := by
    have hempty : x = [] := OrderedSet.mem_singleton.1 hx
    exact hempty ▸ .inl h.entry

/-- Between any calls of a solver without plugins, also after errors, all contexts are in a scope
that its policy keeps to. -/
theorem within_after (h : s.core.Within S) (calls : List (Call × Nat)) :
    (s.after calls).core.Within S := by
  refine after_keeps (I := fun s => s.core.Within S) (fun l hl s fuel h => ?_) h calls
  exact settle_within h (forall_mem_agendas trivial trivial trivial (fun _ => trivial) trivial l hl)
    fuel

end Solver

end PointsTo
