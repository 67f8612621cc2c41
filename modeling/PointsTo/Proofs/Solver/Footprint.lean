import PointsTo.Proofs.CallGraph.MethodGraph
import PointsTo.Proofs.Solver.Timely

/-!
# The footprint of a task

Whatever plugins a solver has, and whether a task fails or not, each task leaves few traces in the
call graph, in the element tables and among the call edges on the worklist: it adds one method,
entry, call site or edge, it looks up one callee, or it lowers one method.

* `Core.callsAfter`, `Core.elementsAfter` and `Core.waitingAfter`: the call graph, the tables and
  the edges on the worklist after a task;
* `Core.perform_footing`: this is what the task makes of them, up to the log;
* `Core.CallsFor`: what a task can call for (`Core.perform_callsFor`).
-/

namespace PointsTo

namespace Worklist

/-- The call edges on a worklist, with their callers. -/
def edges (w : Worklist) : List (CtxMethod × CtxEdge) :=
  w.items.filterMap fun
    | .edge m e => some (m, e)
    | .objects _ _ => none

theorem mem_edges {w : Worklist} {m : CtxMethod} {e : CtxEdge} :
    (m, e) ∈ w.edges ↔ .edge m e ∈ w.items := by
  constructor
  · intro h
    obtain ⟨i, hi, heq⟩ := List.mem_filterMap.1 h
    cases i with
    | edge m' e' =>
      cases heq
      exact hi
    | objects => cases heq
  · exact fun h => List.mem_filterMap.2 ⟨_, h, rfl⟩

theorem edges_push_objects (w : Worklist) (p : Pointer) (os : PointsToSet) :
    (w.push (.objects p os)).edges = w.edges := by
  simp [edges, push, List.filterMap_append]

theorem edges_push_edge (w : Worklist) (m : CtxMethod) (e : CtxEdge) :
    (w.push (.edge m e)).edges = w.edges ++ [(m, e)] := by
  simp [edges, push, List.filterMap_append]

end Worklist

namespace Core

/-- The call graph, the tables without the log, the call edges on the worklist, the methods to
ignore, and whether the run has started. -/
structure Footing where
  calls : CallGraph CtxSite CtxMethod
  elements : Elements
  waiting : List (CtxMethod × CtxEdge)
  ignored : OrderedSet MethodId
  started : Bool

/-- The footing of a state. -/
def footing (c : Core) : Footing where
  calls := c.analysis.calls
  elements := { c.elements with log := [] }
  waiting := c.worklist.edges
  ignored := c.ignored
  started := c.started

/-- The callee of a dispatched call on an object, and the tables after it was looked up. -/
def found (c : Core) (s : CtxSite) (o : Obj) : Option MethodId × Elements :=
  c.elements.dispatch (c.analysis.heap.typeOf o)
    (c.program.subsignature (c.elements.site s.site).target)

/-- The method that a task has lowered. -/
def lowered? (c : Core) (t : Task) : Option MethodId :=
  (match t with
    | .reach m => if m ∈ c.analysis.calls.methods then none else some m.method
    | .dispatch _ s o => (c.found s o).1
    | .bind e => some e.callee.method
    | _ => none).filter (· ∉ c.ignored)

/-- The tables in which a task looks for code. -/
def elementsBefore (c : Core) : Task → Elements
  | .dispatch _ s o => (c.found s o).2
  | _ => c.elements

/-- The tables after a task, up to the log. -/
def elementsAfter (c : Core) (t : Task) : Elements :=
  match c.lowered? t with
  | some m => ((c.elementsBefore t).lower m).2
  | none => c.elementsBefore t

/-- The call graph after a task. -/
def callsAfter (c : Core) : Task → CallGraph CtxSite CtxMethod
  | .reach m => c.analysis.calls.addMethod m
  | .enter m => c.analysis.calls.addEntry m
  | .exec m s _ =>
    match (c.elements.stmt? s).map PlacedStmt.stmt with
    | some (.call id _) => c.analysis.calls.addSite m ⟨m.ctx, id⟩
    | _ => c.analysis.calls
  | .record m e => c.analysis.calls.addEdge m e
  | _ => c.analysis.calls

/-- The call edges on the worklist after a task. -/
def waitingAfter (c : Core) : Task → List (CtxMethod × CtxEdge)
  | .exec m s _ =>
    match (c.elements.stmt? s).map PlacedStmt.stmt with
    | some (.call id _) =>
      if (c.elements.site id).kind = .static ∨ (c.elements.site id).kind = .special then
        c.worklist.edges ++ [(m, c.edgeAt ⟨m.ctx, id⟩ none (c.elements.site id).target)]
      else c.worklist.edges
    | _ => c.worklist.edges
  | .dispatch m s o =>
    match (c.found s o).1 with
    | some callee => c.worklist.edges ++ [(m, c.edgeAt s (some o) callee)]
    | none => c.worklist.edges
  | .next =>
    match c.worklist.pop? with
    | some (_, w) => w.edges
    | none => c.worklist.edges
  | _ => c.worklist.edges

/-- Whether the run has started after a task. -/
def startedAfter (c : Core) : Task → Bool
  | .begin => true
  | _ => c.started

variable {c : Core} {t : Task}

/-! ### Operations that leave no trace -/

theorem footing_tell (c : Core) (level : Level) (text : String) :
    (c.tell level text).footing = c.footing :=
  rfl

theorem footing_push (c : Core) (p : Pointer) (os : PointsToSet) :
    (c.push (.objects p os)).footing = c.footing := by
  show { c.footing with waiting := (c.worklist.push (.objects p os)).edges } = c.footing
  rw [Worklist.edges_push_objects]
  rfl

theorem footing_link (c : Core) (a b : Pointer) : (c.link a b).footing = c.footing := by
  unfold link
  simp only
  split
  · rfl
  · split
    · rfl
    · exact footing_push _ _ _

/-- Putting a call edge on the worklist. -/
theorem footing_call (c : Core) (m : CtxMethod) (kind : CallKind) (s : CtxSite)
    (receiver : Option Obj) (callee : MethodId) :
    (c.call m kind s receiver callee).footing =
      { c.footing with waiting := c.worklist.edges ++
          [(m, ⟨kind, s, ⟨c.policy.calleeContext s.ctx s.site receiver, callee⟩⟩)] } := by
  rw [← Worklist.edges_push_edge]
  rfl

theorem footing_watch (c : Core) (m : CtxMethod) (v : VarId) (s : StmtId) (injected : Bool) :
    (c.watch m v s injected).1.footing = c.footing := by
  have hreact : ∀ (c₁ : Core) (os : PointsToSet),
      (if os.isEmpty then c₁.proceed [] else c₁.proceed [.react m s os]).1.footing =
        c₁.footing := by
    intro c₁ os
    split <;> rfl
  refine (hreact _ _).trans ?_
  cases injected <;> rfl

theorem footing_lowering {k : Core → Outcome} (h : ∀ c₁, (k c₁).1.footing = c₁.footing)
    (m : MethodId) : (c.lowering m k).1.footing = (c.lower m).2.footing := by
  unfold lowering
  split <;> rename_i heq <;> rw [heq]
  exact h _

theorem footing_bindArgs (c : Core) (x y : Context) (args params : List (Option VarId)) :
    (c.bindArgs x y args params).footing = c.footing := by
  refine foldl_eq (V := footing) (fun c z => ?_) _ _
  split
  · exact footing_link c _ _
  · rfl

theorem footing_bindResult (c : Core) (x y : Context) (returns : List VarId)
    (result : Option VarId) : (c.bindResult x y returns result).footing = c.footing := by
  unfold bindResult
  split
  · rfl
  · exact foldl_eq (fun c r => footing_link c _ _) _ _

/-! ### Tasks -/

theorem footing_execCall (c : Core) (m : CtxMethod) (s : StmtId) (id : SiteId) (injected : Bool) :
    (c.execCall m s id injected).1.footing =
      { c.footing with
        calls := c.analysis.calls.addSite m ⟨m.ctx, id⟩
        waiting :=
          if (c.elements.site id).kind = .static ∨ (c.elements.site id).kind = .special then
            c.worklist.edges ++ [(m, c.edgeAt ⟨m.ctx, id⟩ none (c.elements.site id).target)]
          else c.worklist.edges } := by
  unfold execCall
  simp only
  split
  case h_1 hk =>
    rw [if_pos (.inl hk)]
    exact footing_call _ m _ _ _ _
  case h_2 hk =>
    rw [if_pos (.inr hk)]
    exact footing_call _ m _ _ _ _
  case h_3 hk _ | h_4 hk _ =>
    rw [if_neg (by simp [hk])]
    exact footing_watch _ m _ s injected
  case h_5 hk _ | h_6 hk _ | h_7 hk =>
    rw [if_neg (by simp [hk])]
    rfl

theorem footing_exec (c : Core) (m : CtxMethod) (s : StmtId) (injected : Bool) :
    (c.exec m s injected).1.footing =
      { c.footing with
        calls := c.callsAfter (.exec m s injected)
        waiting := c.waitingAfter (.exec m s injected) } := by
  simp only [exec, callsAfter, waitingAfter]
  cases (c.elements.stmt? s).map PlacedStmt.stmt with
  | none => rfl
  | some st =>
    cases st with
    | alloc => exact footing_push _ _ _
    | assign => exact footing_link c _ _
    | load | store => exact footing_watch c m _ s injected
    | call id lhs => exact footing_execCall c m s id injected

theorem footing_react (c : Core) (m : CtxMethod) (s : StmtId) (os : PointsToSet) :
    (c.react m s os).1.footing = c.footing := by
  unfold react
  split
  · exact foldl_eq (fun c o => footing_link c _ _) _ _
  · exact foldl_eq (fun c o => footing_link c _ _) _ _
  · split <;> rfl
  all_goals rfl

/-- The object of a dispatched call goes to the receiver of the callee. -/
def handOver (c : Core) (s : CtxSite) (o : Obj) (callee : MethodId) : Outcome :=
  match (c.elements.code callee).this with
  | none => c.proceed []
  | some this =>
    let p := Pointer.var (c.policy.calleeContext s.ctx s.site (some o)) this
    ((c.addPointer p).push (.objects p (.singleton o))).proceed []

/-- A dispatched call on an object without implementation fails. -/
theorem dispatch_of_none (m : CtxMethod) {s : CtxSite} {o : Obj} (h : (c.found s o).1 = none) :
    ∃ err, c.dispatch m s o = (c.withElements (c.found s o).2, .error err) := by
  unfold found at h
  simp only [dispatch, h]
  exact ⟨_, rfl⟩

/-- The edge of a dispatched call is put on the worklist before the callee is looked at. -/
theorem dispatch_of_some (m : CtxMethod) {s : CtxSite} {o : Obj} {callee : MethodId}
    (h : (c.found s o).1 = some callee) :
    c.dispatch m s o =
      let c₁ := (c.withElements (c.found s o).2).call m (c.elements.site s.site).kind s (some o)
        callee
      if callee ∈ c.ignored then c₁.proceed []
      else c₁.lowering callee fun c => c.handOver s o callee := by
  unfold found at h
  simp only [dispatch, h]
  rfl

theorem footing_handOver (c : Core) (s : CtxSite) (o : Obj) (callee : MethodId) :
    (c.handOver s o callee).1.footing = c.footing := by
  unfold handOver
  split
  · rfl
  · exact footing_push _ _ _

theorem footing_dispatch (c : Core) (m : CtxMethod) (s : CtxSite) (o : Obj) :
    (c.dispatch m s o).1.footing =
      { c.footing with
        elements := { c.elementsAfter (.dispatch m s o) with log := [] }
        waiting := c.waitingAfter (.dispatch m s o) } := by
  have hcall := fun callee => footing_call (c.withElements (c.found s o).2) m
    (c.elements.site s.site).kind s (some o) callee
  simp only [elementsAfter, lowered?, elementsBefore, waitingAfter]
  cases hfound : (c.found s o).1 with
  | none =>
    obtain ⟨err, heq⟩ := dispatch_of_none m hfound
    rw [heq]
    rfl
  | some callee =>
    rw [dispatch_of_some m hfound]
    simp only
    split <;> rename_i hi
    · simp only [Option.filter, hi, not_true_eq_false, decide_false]
      exact hcall callee
    · simp only [Option.filter, hi, not_false_eq_true, decide_true]
      refine (footing_lowering (fun c₁ => footing_handOver c₁ s o callee) callee).trans ?_
      show Footing.mk _ _ (c.worklist.push (.edge m (c.edgeAt s (some o) callee))).edges _ _ = _
      rw [Worklist.edges_push_edge]
      rfl

theorem footing_bind (c : Core) (e : CtxEdge) :
    (c.bind e).1.footing =
      { c.footing with elements := { c.elementsAfter (.bind e) with log := [] } } := by
  have hlowered : c.lowered? (.bind e) = if e.callee.method ∈ c.ignored then none
      else some e.callee.method := by
    simp [lowered?, Option.filter]
  unfold bind elementsAfter
  rw [hlowered]
  split
  · rfl
  · refine (footing_lowering (fun c₁ => ?_) _).trans rfl
    simp only
    split
    · exact (footing_link _ _ _).trans ((footing_bindResult _ _ _ _ _).trans
        (footing_bindArgs _ _ _ _ _))
    · exact (footing_bindResult _ _ _ _ _).trans (footing_bindArgs _ _ _ _ _)

theorem footing_reach (c : Core) (m : CtxMethod) :
    (c.reach m).1.footing =
      { c.footing with
        calls := c.analysis.calls.addMethod m
        elements := { c.elementsAfter (.reach m) with log := [] } } := by
  have hlowered : c.lowered? (.reach m) =
      (if m ∈ c.analysis.calls.methods then none else some m.method).filter (· ∉ c.ignored) := rfl
  unfold reach elementsAfter
  rw [hlowered]
  split <;> rename_i hm <;> rw [CallGraph.contains_iff] at hm
  · rw [if_pos hm, CallGraph.addMethod_of_mem hm]
    rfl
  · rw [if_neg hm]
    simp only [Option.filter]
    split <;> rename_i hi
    · have hi' : m.method ∈ c.ignored := hi
      simp only [hi', not_true_eq_false, decide_false]
      rfl
    · have hi' : m.method ∉ c.ignored := hi
      simp only [hi', not_false_eq_true, decide_true]
      refine (footing_lowering (fun c₁ => ?_) _).trans rfl
      split <;> rfl

theorem footing_takeObjects (c : Core) (p : Pointer) (os : PointsToSet) :
    (c.takeObjects p os).1.footing = c.footing := by
  unfold takeObjects
  simp only
  split
  · rfl
  · split <;> exact foldl_eq (V := footing) (fun c p => footing_push c p _) _ _

theorem footing_next (c : Core) :
    c.next.1.footing = { c.footing with waiting := c.waitingAfter .next } := by
  simp only [next, waitingAfter]
  cases c.worklist.pop? with
  | none => rfl
  | some r =>
    obtain ⟨i, w⟩ := r
    cases i with
    | objects p os => exact footing_takeObjects _ _ _
    | edge m e =>
      simp only [takeEdge]
      split <;> rfl

/-- What a task does to the call graph and to the tables, whether it fails or not. -/
theorem perform_footing (c : Core) (t : Task) :
    (c.perform t).1.footing =
      ⟨c.callsAfter t, { c.elementsAfter t with log := [] }, c.waitingAfter t, c.ignored,
        c.startedAfter t⟩ := by
  cases t with
  | begin =>
    show c.begin.1.footing = { c.footing with started := true }
    unfold begin
    split <;> rename_i hs
    · rw [← hs]
      rfl
    · rfl
  | reach m => exact footing_reach c m
  | exec m s injected => exact footing_exec c m s injected
  | react m s os => exact footing_react c m s os
  | dispatch m s o => exact footing_dispatch c m s o
  | next => exact footing_next c
  | drain =>
    show c.drain.1.footing = _
    unfold drain
    split <;> rfl
  | bind e => exact footing_bind c e
  | statistics =>
    show c.statistics.footing = _
    simp only [statistics, footing_tell]
    rfl
  | enter | wake | record | announce => rfl

theorem perform_calls (c : Core) (t : Task) : (c.perform t).1.analysis.calls = c.callsAfter t :=
  congrArg Footing.calls (c.perform_footing t)

theorem reaches_perform_reach (c : Core) (m : CtxMethod) : (c.perform (.reach m)).1.Reaches m := by
  rw [Reaches, Holds, perform_calls, callsAfter, CallGraph.methods_addMethod]
  exact OrderedSet.mem_insert.2 (.inr rfl)

theorem perform_waiting (c : Core) (t : Task) :
    (c.perform t).1.worklist.edges = c.waitingAfter t :=
  congrArg Footing.waiting (c.perform_footing t)

theorem perform_ignored (c : Core) (t : Task) : (c.perform t).1.ignored = c.ignored :=
  congrArg Footing.ignored (c.perform_footing t)

theorem perform_started (c : Core) (t : Task) : (c.perform t).1.started = c.startedAfter t :=
  congrArg Footing.started (c.perform_footing t)

/-- What the log does not say is the same in the tables after a task. -/
theorem perform_elements {α : Type} (f : Elements → α)
    (hf : ∀ e : Elements, f { e with log := [] } = f e) (c : Core) (t : Task) :
    f (c.perform t).1.elements = f (c.elementsAfter t) := by
  have h : { (c.perform t).1.elements with log := [] } = { c.elementsAfter t with log := [] } :=
    congrArg Footing.elements (c.perform_footing t)
  rw [← hf, h, hf]

/-- Call edges get into the call graph by being recorded. -/
theorem mem_callsAfter {m : CtxMethod} {e : CtxEdge} (h : (m, e) ∈ (c.callsAfter t).calls) :
    (m, e) ∈ c.analysis.calls.calls ∨ t = .record m e := by
  cases t with
  | record m' e' =>
    rcases CallGraph.mem_calls_addEdge.1 h with h | ⟨-, ⟨⟩⟩
    · exact .inl h
    · exact .inr rfl
  | exec m' s injected =>
    simp only [callsAfter] at h
    split at h <;> exact .inl h
  | _ => exact .inl h

/-- Call edges get on the worklist when a call is run, or when it is dispatched on an object. -/
theorem mem_waitingAfter {m : CtxMethod} {e : CtxEdge} (h : (m, e) ∈ c.waitingAfter t) :
    (m, e) ∈ c.worklist.edges ∨
      (∃ s injected id lhs, t = .exec m s injected ∧ c.elements.Has s (.call id lhs) ∧
        e = c.edgeAt ⟨m.ctx, id⟩ none (c.elements.site id).target) ∨
      ∃ s o callee, t = .dispatch m s o ∧ (c.found s o).1 = some callee ∧
        e = c.edgeAt s (some o) callee := by
  cases t with
  | exec m' s injected =>
    simp only [waitingAfter] at h
    split at h
    · rename_i id lhs hs
      split at h
      · rcases List.mem_append.1 h with h | h
        · exact .inl h
        · cases List.mem_singleton.1 h
          exact .inr (.inl ⟨s, injected, id, lhs, rfl, hs, rfl⟩)
      · exact .inl h
    · exact .inl h
  | dispatch m' s o =>
    simp only [waitingAfter] at h
    split at h
    · rename_i callee hfound
      rcases List.mem_append.1 h with h | h
      · exact .inl h
      · cases List.mem_singleton.1 h
        exact .inr (.inr ⟨s, o, callee, rfl, hfound, rfl⟩)
    · exact .inl h
  | next =>
    simp only [waitingAfter] at h
    rcases c.worklist.pop?_spec with ⟨-, hpop⟩ | ⟨l₁, i, l₂, hitems, hpop, -⟩ <;> rw [hpop] at h
    · exact .inl h
    · rw [Worklist.mem_edges] at h
      refine .inl (Worklist.mem_edges.2 (hitems ▸ ?_))
      rcases List.mem_append.1 h with h | h
      · exact List.mem_append_left _ h
      · exact List.mem_append_right _ (List.mem_cons_of_mem i h)
  | _ => exact .inl h

/-- A call edge that is due after a task was due before, is recorded by the task, or was put on the
worklist by it. -/
theorem due_edge_perform {m : CtxMethod} {e : CtxEdge} (h : (c.perform t).1.Due (.edge m e)) :
    c.Due (.edge m e) ∨ t = .record m e ∨
      (∃ s injected id lhs, t = .exec m s injected ∧ c.elements.Has s (.call id lhs) ∧
        e = c.edgeAt ⟨m.ctx, id⟩ none (c.elements.site id).target) ∨
      ∃ s o callee, t = .dispatch m s o ∧ (c.found s o).1 = some callee ∧
        e = c.edgeAt s (some o) callee := by
  rcases h with h | ⟨i, hi, hcarries⟩
  · replace h : (m, e) ∈ (c.perform t).1.analysis.calls.calls := h
    rw [perform_calls] at h
    rcases mem_callsAfter h with h | h
    · exact .inl (.inl h)
    · exact .inr (.inl h)
  · cases hcarries
    rcases mem_waitingAfter (perform_waiting c t ▸ Worklist.mem_edges.2 hi) with h | h
    · exact .inl (.inr ⟨_, Worklist.mem_edges.1 h, .edge⟩)
    · exact .inr (.inr h)

/-! ### Further tasks -/

/-- A task can call for another one. -/
inductive CallsFor (c : Core) : Task → Task → Prop
  | start : CallsFor c .begin (.announce .start)
  | entry {m : MethodId} (hm : m ∈ c.entries) : CallsFor c .begin (.reach ⟨[], m⟩)
  | list {m : MethodId} (hm : m ∈ c.entries) : CallsFor c .begin (.enter ⟨[], m⟩)
  | arrival {m : CtxMethod} {t : Task} (hm : ¬ c.Reaches m) (hi : m.method ∉ c.ignored)
      (ht : t ∈ arrival m ((c.elements.lower m.method).2.code m.method).body (m.method ∈ c.seen)) :
      CallsFor c (.reach m) t
  | apply {m : CtxMethod} {s : StmtId} {injected : Bool} {st : Stmt} {v : VarId}
      (hs : c.elements.Has s st) (hv : c.awaited? st = some v) :
      CallsFor c (.exec m s injected) (.react m s (c.pointsTo (.var m.ctx v)))
  | unresolved {m : CtxMethod} {s : StmtId} {injected : Bool} {id : SiteId} :
      CallsFor c (.exec m s injected) (.announce (.unresolvedCall ⟨m.ctx, id⟩))
  | dispatch {m : CtxMethod} {s : StmtId} {os : PointsToSet} {id : SiteId} {lhs : Option VarId}
      {o : Obj} (hs : c.elements.Has s (.call id lhs))
      (hk : (c.elements.site id).kind.isDispatched = true) (ho : o ∈ os) :
      CallsFor c (.react m s os) (.dispatch m ⟨m.ctx, id⟩ o)
  | wake {ctx : Context} {v : VarId} {delta : PointsToSet} {s : StmtId}
      (hs : s ∈ (c.elements.var v).dependents ++ c.watchers.get (.var ctx v)) :
      CallsFor c (.wake ctx v delta) (.react ⟨ctx, v.method⟩ s delta)
  | objects {ctx : Context} {v : VarId} {os : PointsToSet} {t : Task}
      (hi : .objects (.var ctx v) os ∈ c.worklist.items)
      (ht : t ∈ onward (os.diff (c.pointsTo (.var ctx v))) (.var ctx v))
      (hnew : ∃ o ∈ os, ¬ c.Holds (.points (.var ctx v) o)) : CallsFor c .next t
  | edge {m : CtxMethod} {e : CtxEdge} {t : Task} (hi : .edge m e ∈ c.worklist.items)
      (ht : t = .reach e.callee ∨ t = .record m e) : CallsFor c .next t
  | drain {t : Task} (ht : t = .next ∨ t = .drain) : CallsFor c .drain t
  | record {m : CtxMethod} {e : CtxEdge} {t : Task}
      (ht : t = .announce (.newCallEdge e) ∨ t = .bind e) : CallsFor c (.record m e) t

/-- The further tasks are among those that `t` can call for in the state `c`. -/
def Outcome.Follows (c : Core) (t : Task) (r : Outcome) : Prop :=
  ∀ ts, r.2 = .ok ts → ∀ t' ∈ ts, c.CallsFor t t'

section

variable {c₁ : Core} {ts : List Task}

theorem follows_proceed (h : ∀ t' ∈ ts, c.CallsFor t t') : (c₁.proceed ts).Follows c t := by
  rintro _ ⟨⟩
  exact h

theorem follows_nil (c₁ : Core) : (c₁.proceed []).Follows c t :=
  follows_proceed (List.forall_mem_nil _)

theorem follows_lowering {m : MethodId} {k : Core → Outcome} (h : (k (c₁.lower m).2).Follows c t) :
    (c₁.lowering m k).Follows c t := by
  unfold lowering
  cases hl : c₁.lower m with
  | mk r c₂ =>
    rw [hl] at h
    cases r with
    | ok => exact h
    | error e => exact nofun

end

theorem follows_watch {m : CtxMethod} {s : StmtId} {v : VarId} {injected : Bool} {st : Stmt}
    {c₁ : Core} (hpoints : ∀ p, c₁.pointsTo p = c.pointsTo p) (hs : c.elements.Has s st)
    (hv : c.awaited? st = some v) :
    (c₁.watch m v s injected).Follows c (.exec m s injected) := by
  have hsame : ∀ c₂ : Core, c₂.pointsTo (.var m.ctx v) = c.pointsTo (.var m.ctx v) →
      (if (c₂.pointsTo (.var m.ctx v)).isEmpty then c₂.proceed []
        else c₂.proceed [.react m s (c₂.pointsTo (.var m.ctx v))]).Follows c
          (.exec m s injected) := by
    intro c₂ h₂
    split
    · exact follows_nil _
    · refine follows_proceed fun t' ht' => ?_
      rw [List.mem_singleton.1 ht', h₂]
      exact .apply hs hv
  have hpointer : (c₁.addPointer (.var m.ctx v)).pointsTo (.var m.ctx v) =
      c.pointsTo (.var m.ctx v) :=
    (c₁.analysis.heap.pointsTo_addPointer _ _).trans (hpoints _)
  refine hsame _ ?_
  cases injected <;> exact hpointer

theorem follows_exec (c : Core) (m : CtxMethod) (s : StmtId) (injected : Bool) :
    (c.exec m s injected).Follows c (.exec m s injected) := by
  unfold exec
  cases hs : (c.elements.stmt? s).map PlacedStmt.stmt with
  | none => exact follows_nil _
  | some st =>
    cases st with
    | alloc | assign => exact follows_nil _
    | load lhs base x => exact follows_watch (fun _ => rfl) hs rfl
    | store base x rhs => exact follows_watch (fun _ => rfl) hs rfl
    | call id lhs =>
      have hawaits : ∀ {r}, (c.elements.site id).kind.isDispatched = true →
          (c.elements.site id).receiver = some r → c.awaited? (.call id lhs) = some r := by
        intro r hk hr
        simp [awaited?, hk, hr]
      simp only [execCall]
      split
      case h_1 | h_2 | h_5 | h_6 => exact follows_nil _
      case h_3 hk hr => exact follows_watch (fun _ => rfl) hs (hawaits (by simp [hk]; rfl) hr)
      case h_4 hk hr => exact follows_watch (fun _ => rfl) hs (hawaits (by simp [hk]; rfl) hr)
      case h_7 =>
        refine follows_proceed fun t' ht' => ?_
        rw [List.mem_singleton.1 ht']
        exact .unresolved

theorem follows_react (c : Core) (m : CtxMethod) (s : StmtId) (os : PointsToSet) :
    (c.react m s os).Follows c (.react m s os) := by
  unfold react
  cases hs : (c.elements.stmt? s).map PlacedStmt.stmt with
  | none => exact follows_nil _
  | some st =>
    cases st with
    | alloc | assign | load | store => exact follows_nil _
    | call id lhs =>
      simp only
      split <;> rename_i hk
      · refine follows_proceed fun t' ht' => ?_
        obtain ⟨o, ho, rfl⟩ := List.mem_map.1 ht'
        exact .dispatch hs hk ho
      · exact follows_nil _

theorem follows_dispatch (c : Core) (m : CtxMethod) (s : CtxSite) (o : Obj) :
    (c.dispatch m s o).Follows c (.dispatch m s o) := by
  unfold dispatch
  simp only
  split
  · exact nofun
  · split
    · exact follows_nil _
    · refine follows_lowering ?_
      split <;> exact follows_nil _

theorem follows_bind (c : Core) (e : CtxEdge) : (c.bind e).Follows c (.bind e) := by
  unfold bind
  split
  · exact follows_nil _
  · refine follows_lowering ?_
    simp only
    split <;> exact follows_nil _

theorem follows_reach (c : Core) (m : CtxMethod) : (c.reach m).Follows c (.reach m) := by
  unfold reach
  split <;> rename_i hm <;> rw [CallGraph.contains_iff] at hm
  · exact follows_nil _
  · simp only
    split <;> rename_i hi
    · exact follows_nil _
    · refine follows_lowering ?_
      have harrival : ∀ {t'}, t' ∈ Core.arrival m ((c.elements.lower m.method).2.code m.method).body
          (m.method ∈ c.seen) → c.CallsFor (.reach m) t' := .arrival hm hi
      split <;> rename_i hseen
      · have hseen' : m.method ∈ c.seen := hseen
        simp only [Core.arrival, hseen', decide_true, if_true, List.nil_append] at harrival
        exact follows_proceed fun t' ht' => harrival ht'
      · have hseen' : m.method ∉ c.seen := hseen
        simp only [Core.arrival, hseen', decide_false, Bool.false_eq_true, if_false] at harrival
        exact follows_proceed fun t' ht' => harrival ht'

theorem follows_next (c : Core) : c.next.Follows c .next := by
  rcases next_spec c with ⟨-, heq⟩ | ⟨l₁, i, l₂, hitems, -, hrest⟩
  · rw [heq]
    exact follows_nil c
  have hi : i ∈ c.worklist.items := by simp [hitems]
  rcases hrest with ⟨p, os, rfl, heq⟩ | ⟨m, e, rfl, heq⟩ <;> rw [heq]
  · rcases (c.remain (l₁ ++ l₂)).takeObjects_cases p os with ⟨-, heq'⟩ | ⟨hnew, htake⟩
    · rw [heq']
      exact follows_nil _
    · rcases htake with ⟨o, x, rfl, heq'⟩ | ⟨ctx, v, text, rfl, heq'⟩ <;> rw [heq']
      · exact follows_nil _
      · exact follows_proceed fun t' ht' => .objects hi ht' hnew
  · rcases (c.remain (l₁ ++ l₂)).takeEdge_spec m e with ⟨-, heq'⟩ | ⟨-, heq'⟩ <;> rw [heq']
    · exact follows_nil _
    · exact follows_proceed fun t' ht' => .edge hi (by simpa using ht')

/-- What a task calls for when it succeeds. -/
theorem perform_callsFor (c : Core) (t : Task) : (c.perform t).Follows c t := by
  cases t with
  | begin =>
    show c.begin.Follows c .begin
    unfold begin
    split
    · exact follows_nil _
    · refine follows_proceed fun t' ht' => ?_
      simp only [List.mem_cons, List.mem_flatMap, List.not_mem_nil, or_false] at ht'
      rcases ht' with rfl | ⟨m, hm, rfl | rfl⟩
      · exact .start
      · exact .entry hm
      · exact .list hm
  | reach m => exact follows_reach c m
  | exec m s injected => exact follows_exec c m s injected
  | react m s os => exact follows_react c m s os
  | dispatch m s o => exact follows_dispatch c m s o
  | wake ctx v delta =>
    refine follows_proceed fun t' ht' => ?_
    obtain ⟨s, hs, rfl⟩ := List.mem_map.1 ht'
    exact .wake hs
  | next => exact follows_next c
  | drain =>
    obtain ⟨ts, heq, hts⟩ := drain_spec c
    show c.drain.Follows c .drain
    rw [heq]
    exact follows_proceed fun t' ht' => .drain (hts t' ht')
  | record m e => exact follows_proceed fun t' ht' => .record (by simpa using ht')
  | bind e => exact follows_bind c e
  | enter | announce | statistics => exact follows_nil _

end Core

end PointsTo
