import PointsTo.Proofs.Elements.Notes
import PointsTo.Proofs.Injection

/-!
# What becomes of the calls of bodies

A call of a body goes on the worklist when it is run, or is noted with its receiver and is
dispatched on each object that arrives there. As long as no task fails, no object is passed over, so
that in the end all call edges are recorded.

* `Core.Answered`: a dispatched call was answered on an object, or a task will see to it;
* `Core.Running`: what has become of a call of a body since it was run in a context;
* `Core.Running.step`: it is never forgotten, and so `Solver.Orderly.running`;
* `Core.Calls`: the callees of a call in a context, and `Core.Running.connects`: when nothing is
  left to be done, there are the edges to them.
-/

namespace PointsTo

/-- The task sees to it that the call `s` of a body is dispatched on `o` in the context `ctx`. -/
def Task.Sees (c : Core) (ctx : Context) (s : StmtId) (o : Obj) (t : Task) : Prop :=
  t.Serves c ctx s o ∨
    ∃ v delta, t = .wake ctx v delta ∧ s ∈ (c.elements.var v).dependents ∧ o ∈ delta

namespace Core

variable {c c' : Core} {t : Task} {ts rest : List Task} {m : CtxMethod} {s : StmtId} {st : Stmt}
  {o : Obj} {ctx : Context} {id : SiteId} {lhs : Option VarId}

/-- A dispatched call on an object has found its callee, or a task is there to do it. -/
def Answered (c : Core) (tasks : List Task) (ctx : Context) (s : StmtId) (id : SiteId) (o : Obj) :
    Prop :=
  c.Resolved tasks ⟨ctx, id⟩ o ∨ ∃ t ∈ tasks, t.Sees c ctx s o

/-- The call `s` of a body, on the call site `id`, was run in a context: its edge is on the way, or
it is noted with its receiver and answered on all objects there. -/
structure Running (c : Core) (tasks : List Task) (ctx : Context) (s : StmtId) (id : SiteId) :
    Prop where
  bound : (c.elements.site id).kind = .static ∨ (c.elements.site id).kind = .special →
    c.Expects tasks (c.edgeAt ⟨ctx, id⟩ none (c.elements.site id).target)
  noted : (c.elements.site id).kind.isDispatched = true →
    ∀ r, (c.elements.site id).receiver = some r → s ∈ (c.elements.var r).dependents
  answered : (c.elements.site id).kind.isDispatched = true →
    ∀ r, (c.elements.site id).receiver = some r → ∀ o, c.Holds (.points (.var ctx r) o) →
      c.Answered tasks ctx s id o

/-! ### One task -/

/-- What a task does about the calls of bodies, besides what it does about other statements: it
applies the statements that are noted with a variable, and the objects that it adds to a variable
are taken care of. -/
structure Passes (t : Task) (c c' : Core) (ts : List Task) : Prop where
  leads : Leads t c c' ts
  woken : ∀ ctx v delta, t = .wake ctx v delta → ∀ s ∈ (c.elements.var v).dependents,
    .react ⟨ctx, v.method⟩ s delta ∈ ts
  arrived : ∀ ctx v o, c'.Holds (.points (.var ctx v) o) → c.Holds (.points (.var ctx v) o) ∨
    ∃ delta, .wake ctx v delta ∈ ts ∧ o ∈ delta

theorem next_arrived (hwf : c.WellFormed) {v : VarId} (h : c.next = (c', .ok ts))
    (ho : c'.Holds (.points (.var ctx v) o)) :
    c.Holds (.points (.var ctx v) o) ∨ ∃ delta, .wake ctx v delta ∈ ts ∧ o ∈ delta := by
  rcases next_spec c with ⟨-, heq⟩ | ⟨l₁, i, l₂, hitems, -, ⟨p, os, rfl, heq⟩ | ⟨m, e, rfl, heq⟩⟩
  · cases heq.symm.trans h
    exact .inl ho
  · rw [heq] at h
    rcases (c.remain (l₁ ++ l₂)).takeObjects_cases p os with ⟨-, hto⟩ | ⟨⟨o', ho', -⟩, htake⟩
    · cases hto.symm.trans h
      exact .inl ho
    · have hp := (hwf.admits (.points p o') (due_of_items hitems (.points ho'))).1
      have hholds := holds_arrive (c := c.remain (l₁ ++ l₂)) hp os (os.diff (c.pointsTo p))
        (.points (.var ctx v) o)
      by_cases hold : c.Holds (.points (.var ctx v) o)
      · exact .inl hold
      · rcases htake with ⟨o', x, rfl, hto⟩ | ⟨ctx', v', text, rfl, hto⟩ <;>
          cases hto.symm.trans h
        · obtain ⟨_, _, heq'⟩ := (hholds.1 ho).resolve_left hold
          cases heq'
        · -- the object is new to the variable, which is woken up with it
          obtain ⟨o'', ho'', heq'⟩ := (hholds.1 ho).resolve_left hold
          cases heq'
          exact .inr ⟨_, List.mem_cons_of_mem _ (List.mem_singleton.2 rfl),
            OrderedSet.mem_diff.2 ⟨ho'', hold⟩⟩
  · rw [heq] at h
    rcases (c.remain (l₁ ++ l₂)).takeEdge_spec m e with ⟨-, hto⟩ | ⟨-, hto⟩ <;>
      cases hto.symm.trans h
    · exact .inl ho
    · exact .inl ho

theorem perform_passes (hwf : c.WellFormed) (ht : t.Sane c) (h : c.perform t = (c', .ok ts)) :
    Passes t c c' ts where
  leads := perform_leads hwf ht h
  woken := by
    rintro ctx v delta rfl s hs
    cases h
    exact List.mem_map_of_mem (List.mem_append_left _ hs)
  arrived ctx v o ho := by
    by_cases hnext : t = .next
    · subst hnext
      exact next_arrived hwf h ho
    · have hworks := perform_works hwf ht hnext
      rw [h] at hworks
      exact .inl ((hworks.edits.holds_points _ o).1 ho)

/-! ### No call is forgotten -/

section

variable (h : Passes t c c' ts)

include h

theorem Passes.mem_dependents {v : VarId} (hs : s ∈ (c.elements.var v).dependents) :
    s ∈ (c'.elements.var v).dependents :=
  Elements.mem_dependents_of_retains (h.leads.grows.elements.retains v.method) hs

variable (hwf : c.WellFormed) (hwf' : c'.WellFormed) (hs : c.elements.Has s (.call id lhs))

include hwf hwf' hs

theorem Answered.step (hk : (c.elements.site id).kind.isDispatched = true)
    (ho : o ∈ c.analysis.heap.objs.keys) (ha : c.Answered (t :: rest) ctx s id o) :
    c'.Answered (ts ++ rest) ctx s id o := by
  have hs' := h.leads.grows.elements.grows.has hs
  have hk' : (c'.elements.site id).kind.isDispatched = true := by
    rw [(hwf.site_becomes h.leads.grows hs).kind_eq]
    exact hk
  rcases ha with ha | ⟨t', ht', hsees⟩
  · exact .inl (Resolved.follows h.leads.follows hwf hs ho ha)
  · rcases List.mem_cons.1 ht' with rfl | ht'
    · -- the task itself finds the callee, or hands the call on
      rcases hsees with hserves | ⟨v, delta, rfl, hdep, hmem⟩
      · rcases h.leads.served ctx o s _ hs hserves with hserved | ⟨t', ht', hserves⟩
        · exact .inl (Resolved.follows (follows_append c' ts rest) hwf' hs'
            (h.leads.grows.mem_objs ho) (hserved hk'))
        · exact .inr ⟨t', List.mem_append_left _ ht', .inl hserves⟩
      · exact .inr ⟨_, List.mem_append_left _ (h.woken ctx v delta rfl s hdep),
          .inl ⟨rfl, rfl, hmem⟩⟩
    · refine .inr ⟨t', List.mem_append_right _ ht', ?_⟩
      rcases hsees with hserves | ⟨v, delta, rfl, hdep, hmem⟩
      · exact .inl (hserves.mono h.leads.grows)
      · exact .inr ⟨v, delta, rfl, h.mem_dependents hdep, hmem⟩

/-- What has become of a call stays so, or is carried on. -/
theorem Running.step (hr : c.Running (t :: rest) ctx s id) : c'.Running (ts ++ rest) ctx s id := by
  have hsite := hwf.site_becomes h.leads.grows hs
  refine ⟨fun hk => ?_, fun hk r hrec => ?_, fun hk r hrec o ho => ?_⟩ <;> rw [hsite.kind_eq] at hk
  · have hfollows : c.Follows (t :: rest) c' (ts ++ rest) := h.leads.follows
    rw [hsite.target_eq, hfollows.edgeAt hwf hs]
    exact hfollows.expects _ (hr.bound hk)
  · rw [hsite.receiver_eq] at hrec
    exact h.mem_dependents (hr.noted hk r hrec)
  · rw [hsite.receiver_eq] at hrec
    rcases h.arrived ctx r o ho with hold | ⟨delta, hwake, hmem⟩
    · have hobj := (hwf.admits _ (.inl hold)).2
      exact Answered.step h hwf hwf' hs hk hobj (hr.answered hk r hrec o hold)
    · exact .inr ⟨_, List.mem_append_left _ hwake,
        .inr ⟨r, delta, rfl, h.mem_dependents (hr.noted hk r hrec), hmem⟩⟩

end

/-- A call of a body that is noted with its receiver is taken care of from when it is run. -/
theorem exec_running (hwf : c.WellFormed) (hs : c.elements.Has s (.call id lhs))
    (hminds : c.elements.Minds s) (hwf' : c'.WellFormed) (hgrows : c.Grows c')
    (h : c.exec m s false = (c', .ok ts)) : c'.Running (ts ++ rest) m.ctx s id := by
  have hsite := hwf.site_becomes hgrows hs
  have hs' := hgrows.elements.grows.has hs
  cases hv : c.awaited? (.call id lhs) with
  | none =>
    have hinstalled := Installed.follows (follows_append c' ts rest) hwf' hs'
      (exec_installed hwf hs hv h)
    have hno : (c'.elements.site id).kind.isDispatched = true →
        ∀ r, (c'.elements.site id).receiver ≠ some r := by
      intro hk r hrec
      rw [hsite.kind_eq] at hk
      rw [hsite.receiver_eq] at hrec
      simp [awaited?, hk, hrec] at hv
    exact ⟨hinstalled.1, fun hk r hrec => absurd hrec (hno hk r),
      fun hk r hrec => absurd hrec (hno hk r)⟩
  | some v =>
    simp only [awaited?] at hv
    split at hv <;> rename_i hk
    · have hrec' : ∀ r, (c'.elements.site id).receiver = some r → r = v := by
        intro r hrec
        rw [hsite.receiver_eq, hv] at hrec
        exact (Option.some.inj hrec).symm
      refine ⟨fun hk' => ?_, fun _ r hrec => ?_, fun _ r hrec o ho => ?_⟩
      · rw [hsite.kind_eq] at hk'
        rcases hk' with hk' | hk' <;> simp [hk', CallKind.isDispatched] at hk
      · rw [hrec' r hrec]
        obtain ⟨st, hst, hanchor⟩ := hminds
        cases hs.symm.trans hst
        refine Elements.mem_dependents_of_retains (hgrows.elements.retains v.method)
          (hanchor v .call ?_)
        rw [Elements.anchor?, hv]
        rfl
      · rw [hrec' r hrec] at ho
        have hawaited : c.awaited? (.call id lhs) = some v := by simp [awaited?, hk, hv]
        obtain ⟨c₁, -, heq⟩ := exec_watch hs hawaited m false
        obtain ⟨os, hreact, hmem⟩ := watch_reacts (heq.symm.trans h) ho
        exact .inr ⟨_, List.mem_append_left _ hreact, .inl ⟨rfl, rfl, hmem⟩⟩
    · cases hv

/-! ### When nothing is left to be done -/

/-- The callees of a call in a context, with the object that a dispatched one is made on. -/
inductive Calls (c : Core) (ctx : Context) (id : SiteId) : Option Obj → MethodId → Prop
  | bound (hk : (c.elements.site id).kind = .static ∨ (c.elements.site id).kind = .special) :
      Calls c ctx id none (c.elements.site id).target
  | dispatched {r : VarId} {o : Obj} {callee : MethodId}
      (hk : (c.elements.site id).kind.isDispatched = true)
      (hr : (c.elements.site id).receiver = some r) (ho : o ∈ c.pointsTo (.var ctx r))
      (hcallee : c.program.dispatch? (c.analysis.heap.typeOf o)
        (c.program.subsignature (c.elements.site id).target) = some callee) :
      Calls c ctx id (some o) callee

/-- The call has its edges: one to each callee, which is reachable. -/
def Connects (c : Core) (ctx : Context) (id : SiteId) : Prop :=
  ∀ o callee, c.Calls ctx id o callee →
    c.edgeAt ⟨ctx, id⟩ o callee ∈ c.analysis.calls.edges ∧
      c.Reaches (c.edgeAt ⟨ctx, id⟩ o callee).callee

/-- The edges are enough, since both ends of an edge are reachable. -/
theorem WellFormed.connects (hwf : c.WellFormed) (h : ∀ o callee, c.Calls ctx id o callee →
    c.edgeAt ⟨ctx, id⟩ o callee ∈ c.analysis.calls.edges) : c.Connects ctx id := by
  intro o callee hcalls
  have hedge := h o callee hcalls
  obtain ⟨x, hx, heq⟩ := List.mem_map.1 hedge
  rw [← heq] at hedge ⊢
  exact ⟨hedge, (hwf.calls.joined x hx).2⟩

theorem Running.connects (h : c.Running [] ctx s id) (hwf : c.WellFormed)
    (hidle : c.worklist.items = []) : c.Connects ctx id := by
  refine hwf.connects fun o callee hcalls => ?_
  cases hcalls with
  | bound hk => exact (h.bound hk).mem_edges hidle
  | dispatched hk hr ho hcallee =>
    obtain ⟨callee', hcallee', hexpects, -⟩ :=
      (h.answered hk _ hr _ ho).resolve_right fun ⟨_, ht, _⟩ => List.not_mem_nil ht
    cases hcallee.symm.trans hcallee'
    exact hexpects.mem_edges hidle

/-- The same for a call that was injected. -/
theorem ObeysCall.connects (h : c.ObeysCall ctx s id lhs) (hwf : c.WellFormed) :
    c.Connects ctx id := by
  refine hwf.connects fun o callee hcalls => ?_
  cases hcalls with
  | bound hk => exact h.bound hk
  | dispatched hk hr ho hcallee =>
    obtain ⟨callee', hcallee', hedge, -⟩ := h.dispatched hk _ hr _ ho
    cases hcallee.symm.trans hcallee'
    exact hedge

end Core

/-! ### Along a run -/

namespace Solver

variable {P : Plugin} {s s' : Solver P} {t : Task} {ts agenda : List Task} {fuel : Nat}
  {ctx : Context} {k : StmtId} {id : SiteId} {lhs : Option VarId}

theorem perform_passes (hwf : s.core.WellFormed) (ht : t.Sane s.core)
    (h : s.perform t = (s', .ok ts)) : Core.Passes t s.core s'.core ts := by
  have hleads := perform_leads hwf ht h
  rcases s.perform_cases t with ⟨x, rfl, heq⟩ | ⟨-, heq⟩
  · cases heq.symm.trans h
    refine ⟨hleads, nofun, fun ctx v o ho => .inl ?_⟩
    exact ((s.announce_edits x).holds_points _ o).1 ho
  · obtain ⟨hcore, hok⟩ := Prod.mk.inj (heq.symm.trans h)
    rw [← hcore]
    exact Core.perform_passes hwf ht (Prod.ext rfl hok)

/-- In the end all is done that was to be done about a call of a body. -/
theorem Orderly.running (h : s.Orderly agenda) (hr : s.core.Running agenda ctx k id)
    (hk : s.core.elements.Has k (.call id lhs)) (hs : s.settle fuel agenda = (s', .done ())) :
    s'.core.Running [] ctx k id := by
  induction fuel generalizing s agenda with
  | zero =>
    cases agenda with
    | nil =>
      cases hs
      exact hr
    | cons t rest => cases hs
  | succ fuel ih =>
    cases agenda with
    | nil =>
      cases hs
      exact hr
    | cons t rest =>
      obtain ⟨n, s₁, ts, hn, hp, hrest⟩ := settle_cons hs
      cases hn
      have h₁ := h.perform hp
      have hpasses := perform_passes h.wellFormed (h.sane t List.mem_cons_self) hp
      exact ih h₁ (hr.step hpasses h.wellFormed h₁.wellFormed hk)
        (hpasses.leads.grows.elements.grows.has hk) hrest

end Solver

end PointsTo
