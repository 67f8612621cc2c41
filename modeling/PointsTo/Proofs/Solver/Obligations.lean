import PointsTo.Proofs.Precision

/-!
# Nothing is lost

As long as no task fails, everything that the rules ask for is found: it holds, or it is on the
worklist, or one of the tasks that are still to be done will see to it.

* `Core.Promises`: a fact is due, or is a call edge that is about to be recorded;
* `Core.Executed`, `Core.Applied`, `Core.Bound`: what the rules for a statement, for a statement and
  an object, and for a call edge ask for is promised, or a task is there for it;
* `Core.Advances`: a task keeps these promises, and fulfils its own;
* `Core.Complete`: the promises that are made in every state of a run;
* `Core.Complete.perform`: every task keeps them.

Whether the body of a method was run is another matter (`Core.Ran`). A method that only got into the
call graph as the caller of an edge need not have been.
-/

namespace PointsTo

/-- The task sees to it that the statement `s` of `m` is applied to `o`. -/
def Task.Covers (q : Problem) (m : CtxMethod) (s : StmtId) (o : Obj) : Task → Prop
  | .wake ctx v delta => m = ⟨ctx, v.method⟩ ∧ s ∈ (q.program.var v).dependents ∧ o ∈ delta
  | .react m' s' os => m' = m ∧ s' = s ∧ o ∈ os
  | .dispatch m' site o' => m' = m ∧ o' = o ∧ site.ctx = m.ctx ∧
      ∃ lhs, q.program.stmt? s = some (.call site.site lhs)
  | _ => False

/-- The task comes after the one that makes its method reachable: `N` are the methods that are
reachable by then. -/
def Task.AfterReach (N : CtxMethod → Prop) : Task → Prop
  | .enter m => N m
  | .record _ e => N e.callee
  | _ => True

/-- The task neither adds to the call graph nor runs a statement by itself. -/
def Task.IsQuiet : Task → Prop
  | .begin | .reach _ | .enter _ | .exec _ _ _ | .record _ _ => False
  | _ => True

/-- Each task has what it needs, when `N` are the methods that are reachable, and those that the
tasks before it make so. -/
def Ordered (need : (CtxMethod → Prop) → Task → Prop) (N : CtxMethod → Prop) : List Task → Prop
  | [] => True
  | t :: ts => need N t ∧ Ordered need (fun m => N m ∨ t = .reach m) ts

section

variable {need need' : (CtxMethod → Prop) → Task → Prop} {N N' : CtxMethod → Prop}
  {ts rest : List Task}

theorem Ordered.imp
    (h : ∀ M M' : CtxMethod → Prop, (∀ m, N m → M m) → (∀ m, N' m → M' m) → (∀ m, M m → M' m) →
      ∀ t, need M t → need' M' t)
    (hN : ∀ m, N m → N' m) (hts : Ordered need N ts) : Ordered need' N' ts := by
  induction ts generalizing N N' with
  | nil => trivial
  | cons t ts ih =>
    refine ⟨h N N' (fun _ => id) (fun _ => id) hN t hts.1, ?_⟩
    refine ih ?_ (fun m => Or.imp_left (hN m)) hts.2
    exact fun M M' hM hM' => h M M' (fun m hm => hM m (.inl hm)) fun m hm => hM' m (.inl hm)

theorem Ordered.mono (h : ∀ M M' : CtxMethod → Prop, (∀ m, M m → M' m) → ∀ t, need M t → need M' t)
    (hN : ∀ m, N m → N' m) (hts : Ordered need N ts) : Ordered need N' ts :=
  hts.imp (fun M M' _ _ => h M M') hN

theorem Ordered.append (h : ∀ M : CtxMethod → Prop, (∀ m, N m → M m) → ∀ t ∈ ts, need M t)
    (hrest : ∀ M : CtxMethod → Prop, (∀ m, N m → M m) → Ordered need M rest) :
    Ordered need N (ts ++ rest) := by
  induction ts generalizing N with
  | nil => exact hrest N fun _ => id
  | cons t ts ih =>
    refine ⟨h N (fun _ => id) t List.mem_cons_self, ih (fun M hM t' ht' => ?_) fun M hM => ?_⟩
    · exact h M (fun m hm => hM m (.inl hm)) t' (List.mem_cons_of_mem t ht')
    · exact hrest M fun m hm => hM m (.inl hm)

end

theorem Task.AfterReach.mono (N N' : CtxMethod → Prop) (hN : ∀ m, N m → N' m) (t : Task)
    (h : t.AfterReach N) : t.AfterReach N' := by
  cases t with
  | enter m => exact hN m h
  | record m e => exact hN _ h
  | _ => trivial

namespace Core

/-- A fact is due, or a call edge that is to be recorded. -/
def Promises (c : Core) (tasks : List Task) (f : Fact) : Prop :=
  c.Due f ∨ ∃ m e, .record m e ∈ tasks ∧ f = .edge m e

/-- A statement of a method was run, or is to be run. -/
def Executed (q : Problem) (c : Core) (tasks : List Task) (m : CtxMethod) (s : StmtId) : Prop :=
  (∀ f, q.Effect m s f → c.Promises tasks f) ∨ .exec m s false ∈ tasks

/-- A statement was applied to an object, and a dispatched call had a target there. -/
def Reacted (q : Problem) (c : Core) (tasks : List Task) (m : CtxMethod) (s : StmtId) (o : Obj) :
    Prop :=
  (∀ f, q.Reaction m s o f → c.Promises tasks f) ∧
    ∀ id lhs, q.program.stmt? s = some (.call id lhs) →
      (q.program.site id).kind.isDispatched = true → ∃ callee, q.target? id o = some callee

/-- A statement was applied to an object, or is to be applied to it. -/
def Applied (q : Problem) (c : Core) (tasks : List Task) (m : CtxMethod) (s : StmtId) (o : Obj) :
    Prop :=
  c.Reacted q tasks m s o ∨ ∃ t ∈ tasks, t.Covers q m s o

/-- What a call edge binds is bound, or is to be. -/
def Bound (q : Problem) (c : Core) (tasks : List Task) (e : CtxEdge) : Prop :=
  (∀ f, q.Binding e f → c.Promises tasks f) ∨ .bind e ∈ tasks

/-- The body of a method was run. -/
def Ran (q : Problem) (c : Core) (tasks : List Task) (m : CtxMethod) : Prop :=
  c.IsBuilt m.method ∧ ∀ s ∈ (q.program.code m.method).body, c.Executed q tasks m s

/-- The task `t` leads from `c` to `c'` and calls for `ts`. What was found stays, what was due is
still promised, and what the task was there for is done or left to `ts`. -/
structure Advances (q : Problem) (t : Task) (c c' : Core) (ts : List Task) : Prop where
  started : c.started = true → c'.started = true
  holds : ∀ f, c.Holds f → c'.Holds f
  built : ∀ m, c.IsBuilt m → c'.IsBuilt m
  due : ∀ f, c.Due f → c'.Promises ts f
  recorded : ∀ m e, t = .record m e → c'.Holds (.edge m e)
  executed : ∀ m s, t = .exec m s false → ∀ f, q.Effect m s f → c'.Due f
  applied : ∀ m s o, t.Covers q m s o → c'.Applied q ts m s o
  bound : ∀ e, t = .bind e → ∀ f, q.Binding e f → c'.Due f

variable {q : Problem} {c c' : Core} {t : Task} {ts rest : List Task} {m : CtxMethod} {s : StmtId}
  {o : Obj} {f : Fact} {e : CtxEdge}

theorem Promises.append_right (h : c.Promises ts f) : c.Promises (ts ++ rest) f :=
  h.imp id fun ⟨m, e, he, hf⟩ => ⟨m, e, List.mem_append_left _ he, hf⟩

namespace Advances

theorem promises (h : Advances q t c c' ts) (hf : c.Promises (t :: rest) f) :
    c'.Promises (ts ++ rest) f := by
  rcases hf with hf | ⟨m, e, he, rfl⟩
  · exact (h.due f hf).append_right
  · rcases List.mem_cons.1 he with rfl | he
    · exact .inl (.inl (h.recorded m e rfl))
    · exact .inr ⟨m, e, List.mem_append_right _ he, rfl⟩

theorem executed_of_executed (h : Advances q t c c' ts) (hs : c.Executed q (t :: rest) m s) :
    c'.Executed q (ts ++ rest) m s := by
  rcases hs with hs | hs
  · exact .inl fun f hf => h.promises (hs f hf)
  · rcases List.mem_cons.1 hs with rfl | hs
    · exact .inl fun f hf => .inl (h.executed m s rfl f hf)
    · exact .inr (List.mem_append_right _ hs)

theorem applied_of_applied (h : Advances q t c c' ts) (hs : c.Applied q (t :: rest) m s o) :
    c'.Applied q (ts ++ rest) m s o := by
  rcases hs with ⟨hs, htarget⟩ | ⟨t', ht', hcov⟩
  · exact .inl ⟨fun f hf => h.promises (hs f hf), htarget⟩
  · rcases List.mem_cons.1 ht' with rfl | ht'
    · rcases h.applied m s o hcov with ⟨hs, htarget⟩ | ⟨t', ht', hcov⟩
      · exact .inl ⟨fun f hf => (hs f hf).append_right, htarget⟩
      · exact .inr ⟨t', List.mem_append_left _ ht', hcov⟩
    · exact .inr ⟨t', List.mem_append_right _ ht', hcov⟩

theorem bound_of_bound (h : Advances q t c c' ts) (he : c.Bound q (t :: rest) e) :
    c'.Bound q (ts ++ rest) e := by
  rcases he with he | he
  · exact .inl fun f hf => h.promises (he f hf)
  · rcases List.mem_cons.1 he with rfl | he
    · exact .inl fun f hf => .inl (h.bound e rfl f hf)
    · exact .inr (List.mem_append_right _ he)

theorem ran_of_ran (h : Advances q t c c' ts) (hm : c.Ran q (t :: rest) m) :
    c'.Ran q (ts ++ rest) m :=
  ⟨h.built _ hm.1, fun s hs => h.executed_of_executed (hm.2 s hs)⟩

/-- A task that adds facts keeps what is due. -/
theorem of_adds {F : Fact → Prop} (h : Adds F c c') (hrecord : ∀ m e, t ≠ .record m e)
    (hexec : ∀ m s, t = .exec m s false → ∀ f, q.Effect m s f → c'.Due f)
    (happlied : ∀ m s o, t.Covers q m s o → c'.Applied q ts m s o)
    (hbind : ∀ e, t = .bind e → ∀ f, q.Binding e f → c'.Due f) : Advances q t c c' ts where
  started hs := h.keeps.started.trans hs
  holds _ := h.holds_of_holds
  built := h.keeps.built
  due _ hf := .inl (h.due_of_due hf)
  recorded m e ht := absurd ht (hrecord m e)
  executed := hexec
  applied := happlied
  bound := hbind

end Advances

/-! ### What each task is there for -/

theorem exec_advances (hc : c.Grounded q) (ht : (Task.exec m s false).Justified q c)
    (h : c.exec m s false = (c', .ok ts)) : Advances q (.exec m s false) c c' ts := by
  obtain ⟨-, -, hb, hs⟩ := ht
  obtain ⟨ts', -, hadds, -⟩ := exec_spec hc.tidy hs hb
  rw [h] at hadds
  refine .of_adds hadds nofun ?_ nofun nofun
  rintro m' s' ⟨⟩ f hf
  exact hadds.due hf

theorem react_advances {os : PointsToSet} (hc : c.Grounded q)
    (ht : (Task.react m s os).Justified q c) (h : c.react m s os = (c', .ok ts)) :
    Advances q (.react m s os) c c' ts := by
  obtain ⟨-, hb, hs, -⟩ := ht
  rcases react_spec hc.tidy hs hb os with ⟨-, hadds, -, hno⟩ | ⟨id, lhs, hcall, -, heq⟩
  · rw [h] at hadds
    refine .of_adds hadds nofun nofun ?_ nofun
    rintro m' s' o ⟨rfl, rfl, ho⟩
    exact .inl ⟨fun f hf => .inl (hadds.due ⟨o, ho, hf⟩),
      fun id lhs hid hk => absurd hk (hno id lhs hid)⟩
  · cases h.symm.trans heq
    refine .of_adds (adds_refl c) nofun nofun ?_ nofun
    rintro m' s' o ⟨rfl, rfl, ho⟩
    exact .inr ⟨_, List.mem_map.2 ⟨o, ho, rfl⟩, rfl, rfl, rfl, lhs, hcall⟩

theorem dispatch_advances {site : CtxSite} (hc : c.Grounded q)
    (ht : (Task.dispatch m site o).Justified q c) (h : c.dispatch m site o = (c', .ok ts)) :
    Advances q (.dispatch m site o) c c' ts := by
  obtain ⟨ctx, id⟩ := site
  obtain ⟨-, hb, rfl, s, lhs, hs, -, ha, ho⟩ := ht
  have hid := ha.isBuilt_site hs hb
  rcases dispatch_spec (m := m) hc.tidy hid ho with
    ⟨-, -, e, he⟩ | ⟨callee, c₁, htarget, hedge, ⟨e, heq, -⟩ | ⟨c₂, heq, hthis, -⟩⟩
  · rw [h] at he
    cases he
  · cases h.symm.trans heq
  · cases h.symm.trans heq
    refine .of_adds (hedge.trans hthis) nofun nofun ?_ nofun
    rintro m' s' o' ⟨rfl, rfl, -, lhs', hs'⟩
    refine .inl ⟨fun f hf => .inl ?_, fun id' lhs'' hs'' _ => ?_⟩
    · cases ((Problem.reaction_call_iff hs').1 hf).2 with
      | edge ht =>
        cases htarget.symm.trans ht
        exact (hedge.trans hthis).due (.inl rfl)
      | this ht hthis' =>
        cases htarget.symm.trans ht
        exact (hedge.trans hthis).due (.inr ⟨_, hthis', rfl⟩)
    · cases hs'.symm.trans hs''
      exact ⟨callee, htarget⟩

theorem wake_advances {ctx : Context} {v : VarId} {delta : PointsToSet} (hc : c.Grounded q)
    (ht : (Task.wake ctx v delta).Justified q c) (h : c.wake ctx v delta = (c', .ok ts)) :
    Advances q (.wake ctx v delta) c c' ts := by
  rw [wake_eq hc.tidy ht.2.1] at h
  cases h
  refine .of_adds (adds_refl c) nofun nofun ?_ nofun
  rintro m s o ⟨rfl, hs, ho⟩
  exact .inr ⟨_, List.mem_map.2 ⟨s, hs, rfl⟩, rfl, rfl, ho⟩

theorem bind_advances (hc : c.Grounded q) (ht : (Task.bind e).Justified q c)
    (h : c.bind e = (c', .ok ts)) : Advances q (.bind e) c c' ts := by
  obtain ⟨m, he, hb⟩ := ht
  obtain ⟨-, -, -, s, lhs, hs⟩ := he.home
  rcases bind_spec hc.tidy hb hs with ⟨err, heq, -⟩ | ⟨c₁, heq, hadds, -⟩
  · cases h.symm.trans heq
  · cases h.symm.trans heq
    refine .of_adds hadds nofun nofun nofun ?_
    rintro e' ⟨⟩ f hf
    exact hadds.due hf

/-- An edge with the call site and the callee of a derived one is that edge. -/
theorem holds_edge_of_hasEdge (hc : c.Grounded q) (he : q.Derives (.edge m e))
    (h : c.analysis.calls.hasEdge e.site e.callee = true) : c.Holds (.edge m e) := by
  obtain ⟨⟨m', e'⟩, hx, hsite, hcallee⟩ := (hc.tidy.calls.recorded _ _).1 h
  obtain ⟨hm, -, hk, -⟩ := he.home
  obtain ⟨hm', -, hk', -⟩ := (hc.derives (.edge m' e') (.inl hx)).home
  obtain ⟨kind, site, callee⟩ := e
  obtain ⟨kind', site', callee'⟩ := e'
  obtain rfl : site' = site := hsite
  obtain rfl : callee' = callee := hcallee
  obtain rfl : kind = kind' := hk.trans hk'.symm
  obtain rfl : m = m' := hm.trans hm'.symm
  exact hx

theorem record_advances (hc : c.Grounded q) (ht : (Task.record m e).Justified q c)
    (h : c.record m e = (c', .ok ts)) : Advances q (.record m e) c c' ts := by
  obtain ⟨c₁, heq, hkeeps, -, hw, hholds⟩ := record_spec c m e
  cases h.symm.trans heq
  have hmono : ∀ f, c.Holds f → c'.Holds f := fun f hf => (hholds f).2 (.inl hf)
  refine ⟨hkeeps.started.trans, hmono, hkeeps.built, fun f hf => .inl ?_, ?_, nofun, nofun, nofun⟩
  · exact hf.imp (hmono f) (awaits_congr hw).2
  · rintro m' e' ⟨⟩
    refine (hholds _).2 ?_
    cases hnew : c.analysis.calls.hasEdge e.site e.callee with
    | true => exact .inl (holds_edge_of_hasEdge hc ht.1 hnew)
    | false => exact .inr ⟨rfl, .inl rfl⟩

/-- What the item that is taken up brings holds, or is a call edge that is about to be recorded. -/
theorem next_advances (hc : c.Grounded q) (h : c.next = (c', .ok ts)) :
    Advances q .next c c' ts := by
  rcases next_spec c with ⟨-, heq⟩ | ⟨l₁, i, l₂, hitems, -, hrest⟩
  · cases h.symm.trans heq
    exact .of_adds (adds_refl c) nofun nofun nofun nofun
  have hcarried : ∀ f, i.Carries f → c.Due f := fun f hf => .inr ⟨i, by simp [hitems], hf⟩
  have hremain := fun f => (holds_remain c (l₁ ++ l₂) f).2
  have hdue : ∀ f, c.Due f → (c.remain (l₁ ++ l₂)).Due f ∨ i.Carries f := by
    rintro f (hf | ⟨j, hj, hf⟩)
    · exact .inl (.inl (hremain f hf))
    · rw [hitems] at hj
      rcases List.mem_append.1 hj with hj | hj
      · exact .inl (.inr ⟨j, List.mem_append_left _ hj, hf⟩)
      · rcases List.mem_cons.1 hj with rfl | hj
        · exact .inr hf
        · exact .inl (.inr ⟨j, List.mem_append_right _ hj, hf⟩)
  rcases hrest with ⟨p, os, rfl, heq⟩ | ⟨m, e, rfl, heq⟩
  · have hp : ∀ o ∈ os, p ∈ c.analysis.heap.pointers.keys := fun o ho =>
      (hc.knows _ (hcarried _ (.points ho))).1.1
    rcases takeObjects_spec (c := c.remain (l₁ ++ l₂)) hp with
      ⟨hold, heq'⟩ | ⟨c₁, ts₁, heq', hkeeps, -, -, hholds, hitems', -, -⟩
    · cases h.symm.trans (heq.trans heq')
      refine ⟨id, hremain, fun _ => id, fun f hf => .inl ?_, nofun, nofun, nofun, nofun⟩
      rcases hdue f hf with hf | hf
      · exact hf
      · cases hf with
        | points ho => exact .inl (hold _ ho)
    · cases h.symm.trans (heq.trans heq')
      refine ⟨hkeeps.started.trans, fun f hf => (hholds f).2 (.inl (hremain f hf)), hkeeps.built,
        fun f hf => .inl ?_, nofun, nofun, nofun, nofun⟩
      rcases hdue f hf with (hf | ⟨j, hj, hf⟩) | hf
      · exact .inl ((hholds f).2 (.inl hf))
      · exact .inr ⟨j, hitems' ▸ List.mem_append_left _ hj, hf⟩
      · cases hf with
        | points ho => exact .inl ((hholds _).2 (.inr ⟨_, ho, rfl⟩))
  · have he := hc.derives _ (hcarried _ .edge)
    rcases takeEdge_spec (c.remain (l₁ ++ l₂)) m e with ⟨hold, heq'⟩ | ⟨-, heq'⟩
    · cases h.symm.trans (heq.trans heq')
      refine ⟨id, hremain, fun _ => id, fun f hf => .inl ?_, nofun, nofun, nofun, nofun⟩
      rcases hdue f hf with hf | hf
      · exact hf
      · cases hf
        exact .inl (hremain _ (holds_edge_of_hasEdge hc he hold))
    · cases h.symm.trans (heq.trans heq')
      refine ⟨id, hremain, fun _ => id, fun f hf => ?_, nofun, nofun, nofun, nofun⟩
      rcases hdue f hf with hf | hf
      · exact .inl hf
      · cases hf
        exact .inr ⟨m, e, by simp, rfl⟩

theorem reach_advances (hc : c.Grounded q) (h : c.reach m = (c', .ok ts)) :
    Advances q (.reach m) c c' ts := by
  by_cases hm : m ∈ c.analysis.calls.methods
  · cases h.symm.trans (reach_of_mem hm)
    exact .of_adds (adds_refl c) nofun nofun nofun nofun
  · rcases reach_spec hc.tidy hm with ⟨e, -, heq⟩ | ⟨c₁, ts₁, heq, hadds, -⟩
    · cases h.symm.trans heq
    · cases h.symm.trans heq
      exact .of_adds hadds nofun nofun nofun nofun

theorem begin_advances (h : c.begin = (c', .ok ts)) : Advances q .begin c c' ts := by
  have hh : ∀ f, { c with started := true }.Holds f ↔ c.Holds f := fun f => by cases f <;> rfl
  unfold begin at h
  split at h
  · cases h
    exact .of_adds (adds_refl c) nofun nofun nofun nofun
  · cases h
    exact ⟨fun _ => rfl, fun f => (hh f).2, fun _ => id, fun f hf => .inl (hf.imp_left (hh f).2),
      nofun, nofun, nofun, nofun⟩

/-- Every task keeps what is due, and does or leaves to other tasks what it is there for. -/
theorem perform_advances (hc : c.Grounded q) (ht : t.Justified q c)
    (hok : c.perform t = (c', .ok ts)) : Advances q t c c' ts := by
  cases t with
  | begin => exact begin_advances hok
  | reach m => exact reach_advances hc hok
  | enter m =>
    cases hok
    exact .of_adds (adds_addEntry c m) nofun nofun nofun nofun
  | exec m s injected =>
    obtain rfl : injected = false := ht.1
    exact exec_advances hc ht hok
  | react m s os => exact react_advances hc ht hok
  | dispatch m site o => exact dispatch_advances hc ht hok
  | wake ctx v delta => exact wake_advances hc ht hok
  | next => exact next_advances hc hok
  | drain =>
    obtain ⟨ts', heq, -⟩ := drain_spec c
    cases heq.symm.trans hok
    exact .of_adds (adds_refl c) nofun nofun nofun nofun
  | record m e => exact record_advances hc ht hok
  | bind e => exact bind_advances hc ht hok
  | announce e =>
    cases hok
    exact .of_adds (adds_refl c) nofun nofun nofun nofun
  | statistics =>
    cases hok
    exact .of_adds (adds_statistics c) nofun nofun nofun nofun

/-! ### The promises that are kept along a run -/

/-- What the rules ask for is found or promised, as far as the methods of the call graph were run.
The others are callers of recorded edges. -/
structure Complete (q : Problem) (c : Core) (tasks : List Task) : Prop where
  lowered : c.LoweredOk q
  entered : c.started = false ∧ .begin ∈ tasks ∨
    ∀ m ∈ q.entries, c.Holds (.reach ⟨[], m⟩) ∨ .reach ⟨[], m⟩ ∈ tasks
  closed : c.FlowClosed
  applied : ∀ ctx v o, c.Holds (.points (.var ctx v) o) →
    ∀ s ∈ (q.program.var v).dependents, c.Applied q tasks ⟨ctx, v.method⟩ s o
  bound : ∀ m e, c.Holds (.edge m e) → c.Holds (.reach e.callee) ∧ c.Bound q tasks e
  ran : ∀ m, c.Holds (.reach m) → c.Ran q tasks m ∨ ∃ e, c.Holds (.edge m e)
  sites : ∀ m s, c.Holds (.site m s) → c.Ran q tasks m
  execs : ∀ m s b, .exec m s b ∈ tasks → c.Ran q tasks m
  ordered : Ordered Task.AfterReach c.Reaches tasks

namespace Complete

/-- What remains of the order of tasks after the first one. -/
theorem ordered_perform (h : Complete q c (t :: rest)) (hadv : Advances q t c c' ts)
    (hreached : ∀ m, t = .reach m → c'.Holds (.reach m))
    (hts : ∀ t' ∈ ts, ∀ N, t'.AfterReach N) :
    Ordered Task.AfterReach c'.Reaches (ts ++ rest) := by
  refine Ordered.append (fun M _ t' ht' => hts t' ht' M) fun M hM => ?_
  exact h.ordered.2.mono Task.AfterReach.mono fun m hm => hM m (hm.elim (hadv.holds _) (hreached m))

theorem entered_perform (h : Complete q c (t :: rest)) (hadv : Advances q t c c' ts)
    (hbegin : t ≠ .begin) (hstarted : c'.started = c.started)
    (hreached : ∀ m, t = .reach m → c'.Holds (.reach m)) :
    c'.started = false ∧ .begin ∈ ts ++ rest ∨
      ∀ m ∈ q.entries, c'.Holds (.reach ⟨[], m⟩) ∨ .reach ⟨[], m⟩ ∈ ts ++ rest := by
  rcases h.entered with ⟨hst, hmem⟩ | hent
  · left
    rcases List.mem_cons.1 hmem with rfl | hmem
    · exact absurd rfl hbegin
    · exact ⟨hstarted.trans hst, List.mem_append_right _ hmem⟩
  · right
    intro m hm
    rcases hent m hm with hr | hr
    · exact .inl (hadv.holds _ hr)
    · rcases List.mem_cons.1 hr with rfl | hr
      · exact .inl (hreached _ rfl)
      · exact .inr (List.mem_append_right _ hr)

/-- A task keeps the promises if the facts that newly hold do not break them. -/
theorem step (h : Complete q c (t :: rest)) (hadv : Advances q t c c' ts)
    (hlowered : c'.LoweredOk q) (hclosed : c'.FlowClosed)
    (hentered : c'.started = false ∧ .begin ∈ ts ++ rest ∨
      ∀ m ∈ q.entries, c'.Holds (.reach ⟨[], m⟩) ∨ .reach ⟨[], m⟩ ∈ ts ++ rest)
    (hpoints : ∀ ctx v o, c'.Holds (.points (.var ctx v) o) →
      c.Holds (.points (.var ctx v) o) ∨
        ∀ s ∈ (q.program.var v).dependents, c'.Applied q (ts ++ rest) ⟨ctx, v.method⟩ s o)
    (hedges : ∀ m e, c'.Holds (.edge m e) → c.Holds (.edge m e) ∨
      c'.Holds (.reach e.callee) ∧ c'.Bound q (ts ++ rest) e)
    (hreach : ∀ m, c'.Holds (.reach m) → c.Holds (.reach m) ∨ c'.Ran q (ts ++ rest) m ∨
      ∃ e, c'.Holds (.edge m e))
    (hsites : ∀ m s, c'.Holds (.site m s) → c.Holds (.site m s) ∨ c'.Ran q (ts ++ rest) m)
    (hexecs : ∀ m s b, .exec m s b ∈ ts → c'.Ran q (ts ++ rest) m)
    (hordered : Ordered Task.AfterReach c'.Reaches (ts ++ rest)) :
    Complete q c' (ts ++ rest) where
  lowered := hlowered
  entered := hentered
  closed := hclosed
  applied ctx v o ho := (hpoints ctx v o ho).elim
    (fun ho s hs => hadv.applied_of_applied (h.applied ctx v o ho s hs)) id
  bound m e he := (hedges m e he).elim
    (fun he => ⟨hadv.holds _ (h.bound m e he).1, hadv.bound_of_bound (h.bound m e he).2⟩) id
  ran m hm := (hreach m hm).elim
    (fun hm => (h.ran m hm).imp hadv.ran_of_ran fun ⟨e, he⟩ => ⟨e, hadv.holds _ he⟩) id
  sites m s hs := (hsites m s hs).elim (fun hs => hadv.ran_of_ran (h.sites m s hs)) id
  execs m s b hs := (List.mem_append.1 hs).elim (hexecs m s b)
    fun hs => hadv.ran_of_ran (h.execs m s b (List.mem_cons_of_mem t hs))
  ordered := hordered

/-- A task that adds facts keeps the promises. -/
theorem of_adds (h : Complete q c (t :: rest)) (hc : c.Tidy q) {F : Fact → Prop}
    (hadds : Adds F c c') (hadv : Advances q t c c' ts) (hbegin : t ≠ .begin)
    (hreached : ∀ m, t = .reach m → c'.Holds (.reach m))
    (hreach : ∀ m, F (.reach m) → c.Holds (.reach m) ∨ c'.Ran q (ts ++ rest) m)
    (hsite : ∀ m s, F (.site m s) → ∃ s' b, t = .exec m s' b)
    (hts : ∀ t' ∈ ts, t'.IsQuiet ∨ ∃ m s, t' = .exec m s false ∧ c'.Ran q (ts ++ rest) m) :
    Complete q c' (ts ++ rest) := by
  refine h.step hadv (hadds.loweredOk q hc h.lowered) (hadds.closed h.closed)
    (h.entered_perform hadv hbegin hadds.keeps.started hreached) ?_ ?_ ?_ ?_ ?_ ?_
  · intro ctx v o ho
    exact .inl ((hadds.holds_iff_of_isWork (f := .points (.var ctx v) o) trivial).1 ho)
  · intro m e he
    exact .inl ((hadds.holds_iff_of_isWork (f := .edge m e) trivial).1 he)
  · intro m hm
    rcases (hadds.holds _).1 hm with hm | ⟨hm, -⟩
    · exact .inl hm
    · exact (hreach m hm).imp_right .inl
  · intro m s hs
    refine ((hadds.holds _).1 hs).imp_right fun ⟨hs, _⟩ => ?_
    obtain ⟨s', b, rfl⟩ := hsite m s hs
    exact hadv.ran_of_ran (h.execs m s' b List.mem_cons_self)
  · intro m s b hs
    rcases hts _ hs with hq | ⟨m', s', heq, hran⟩
    · exact hq.elim
    · cases heq
      exact hran
  · refine h.ordered_perform hadv hreached fun t' ht' N => ?_
    rcases hts t' ht' with hq | ⟨m, s, rfl, -⟩
    · cases t' with
      | enter | record => exact hq.elim
      | _ => trivial
    · trivial

theorem reach (h : Complete q c (.reach m :: rest)) (hc : c.Tidy q)
    (hadv : Advances q (.reach m) c c' ts) (hok : c.reach m = (c', .ok ts)) :
    Complete q c' (ts ++ rest) := by
  by_cases hm : m ∈ c.analysis.calls.methods
  · cases hok.symm.trans (reach_of_mem hm)
    refine h.of_adds hc (adds_refl c) hadv nofun ?_ nofun nofun nofun
    rintro m' ⟨⟩
    exact hm
  · rcases reach_spec hc hm with ⟨e, -, heq⟩ | ⟨c₁, ts₁, heq, hadds, hb, hbody, hts⟩
    · cases hok.symm.trans heq
    · cases hok.symm.trans heq
      have hran : c'.Ran q (ts ++ rest) m :=
        ⟨hb, fun s hs => .inr (List.mem_append_left _ (hbody s hs))⟩
      refine h.of_adds hc hadds hadv nofun ?_ ?_ nofun ?_
      · rintro m' ⟨⟩
        exact (hadds.holds _).2 (.inr ⟨rfl, id⟩)
      · rintro m' ⟨⟩
        exact .inr hran
      · intro t' ht'
        rcases hts t' ht' with ⟨e, rfl⟩ | ⟨s, -, rfl⟩
        · exact .inl trivial
        · exact .inr ⟨m, s, rfl, hran⟩

theorem enter (h : Complete q c (.enter m :: rest)) (hc : c.Tidy q)
    (hadv : Advances q (.enter m) c (c.modifyCalls (·.addEntry m)) []) :
    Complete q (c.modifyCalls (·.addEntry m)) ([] ++ rest) := by
  refine h.of_adds hc (adds_addEntry c m) hadv nofun nofun ?_ nofun nofun
  rintro m' ⟨⟩
  exact .inl h.ordered.1

theorem exec (h : Complete q c (.exec m s false :: rest)) (hc : c.Grounded q)
    (hadv : Advances q (.exec m s false) c c' ts) (ht : (Task.exec m s false).Justified q c)
    (hok : c.exec m s false = (c', .ok ts)) : Complete q c' (ts ++ rest) := by
  obtain ⟨-, -, hb, hs⟩ := ht
  obtain ⟨ts', hts', hadds, -, hcalls⟩ := exec_spec hc.tidy hs hb
  rw [hok] at hts' hadds
  cases hts'
  refine h.of_adds hc.tidy hadds hadv nofun nofun nofun ?_ fun t' ht' => .inl ?_
  · rintro m' s' ⟨⟩
    exact ⟨s, false, rfl⟩
  · rcases hcalls t' ht' with ⟨e, rfl⟩ | ⟨v, os, rfl, -⟩ <;> trivial

theorem react {os : PointsToSet} (h : Complete q c (.react m s os :: rest)) (hc : c.Grounded q)
    (hadv : Advances q (.react m s os) c c' ts) (ht : (Task.react m s os).Justified q c)
    (hok : c.react m s os = (c', .ok ts)) : Complete q c' (ts ++ rest) := by
  obtain ⟨-, hb, hs, -⟩ := ht
  rcases react_spec hc.tidy hs hb os with ⟨hts, hadds, -, -⟩ | ⟨id, lhs, -, -, heq⟩
  · rw [hok] at hts hadds
    cases hts
    refine h.of_adds hc.tidy hadds hadv nofun nofun ?_ ?_ nofun
    · rintro m' ⟨o, -, hf⟩
      cases hf with
      | call _ _ hf => cases hf
    · rintro m' s' ⟨o, -, hf⟩
      cases hf with
      | call _ _ hf => cases hf
  · cases hok.symm.trans heq
    refine h.of_adds hc.tidy (adds_refl c) hadv nofun nofun nofun nofun fun t' ht' => .inl ?_
    obtain ⟨o, -, rfl⟩ := List.mem_map.1 ht'
    trivial

theorem dispatch {site : CtxSite} (h : Complete q c (.dispatch m site o :: rest))
    (hc : c.Grounded q) (hadv : Advances q (.dispatch m site o) c c' ts)
    (ht : (Task.dispatch m site o).Justified q c)
    (hok : c.dispatch m site o = (c', .ok ts)) : Complete q c' (ts ++ rest) := by
  obtain ⟨ctx, id⟩ := site
  obtain ⟨-, hb, rfl, s, lhs, hs, -, ha, ho⟩ := ht
  have hid := ha.isBuilt_site hs hb
  rcases dispatch_spec (m := m) hc.tidy hid ho with
    ⟨-, -, e, he⟩ | ⟨callee, c₁, -, hedge, ⟨e, heq, -⟩ | ⟨c₂, heq, hthis, -⟩⟩
  · rw [hok] at he
    cases he
  · cases hok.symm.trans heq
  · cases hok.symm.trans heq
    refine h.of_adds hc.tidy (hedge.trans hthis) hadv nofun nofun ?_ ?_ nofun
    · rintro m' (hf | ⟨this, -, hf⟩) <;> cases hf
    · rintro m' s' (hf | ⟨this, -, hf⟩) <;> cases hf

theorem bind (h : Complete q c (.bind e :: rest)) (hc : c.Grounded q)
    (hadv : Advances q (.bind e) c c' ts) (ht : (Task.bind e).Justified q c)
    (hok : c.bind e = (c', .ok ts)) : Complete q c' (ts ++ rest) := by
  obtain ⟨m, he, hb⟩ := ht
  obtain ⟨-, -, -, s, lhs, hs⟩ := he.home
  rcases bind_spec hc.tidy hb hs with ⟨err, heq, -⟩ | ⟨c₁, heq, hadds, -⟩
  · cases hok.symm.trans heq
  · cases hok.symm.trans heq
    exact h.of_adds hc.tidy hadds hadv nofun nofun nofun nofun nofun

theorem record (h : Complete q c (.record m e :: rest)) (hadv : Advances q (.record m e) c c' ts)
    (hok : c.record m e = (c', .ok ts)) : Complete q c' (ts ++ rest) := by
  obtain ⟨c₁, heq, hkeeps, hlowered, hw, hholds⟩ := record_spec c m e
  cases hok.symm.trans heq
  have hcallee : c.Holds (.reach e.callee) := h.ordered.1
  refine h.step hadv (hlowered q h.lowered) ?_
    (h.entered_perform hadv nofun hkeeps.started nofun) ?_ ?_ ?_ ?_ ?_ ?_
  · intro a b o hab ho
    have hflow : c.Holds (.flow a b) := by simpa using (hholds _).1 hab
    have hpoints : c.Holds (.points a o) := by simpa using (hholds _).1 ho
    exact (h.closed a b o hflow hpoints).imp (hadv.holds _) (awaits_congr hw).2
  · intro ctx v o ho
    exact .inl (by simpa using (hholds _).1 ho)
  · intro m' e' he'
    rcases (hholds _).1 he' with he' | ⟨-, heq | heq | heq⟩
    · exact .inl he'
    · cases heq
      exact .inr ⟨hadv.holds _ hcallee, .inr (by simp)⟩
    · cases heq
    · cases heq
  · intro m' hm'
    rcases (hholds _).1 hm' with hm' | ⟨hnew, heq | heq | heq⟩
    · exact .inl hm'
    · cases heq
    · cases heq
      exact .inr (.inr ⟨e, (hholds _).2 (.inr ⟨hnew, .inl rfl⟩)⟩)
    · cases heq
      exact .inl hcallee
  · intro m' s' hs'
    exact .inl (by simpa using (hholds _).1 hs')
  · intro m' s' b hs'
    simp at hs'
  · exact h.ordered_perform hadv nofun (by simp [Task.AfterReach])

/-- Where the flow graph and the points-to sets stay, it is enough that what is due stays so. -/
theorem flowClosed_of_advances (h : c.FlowClosed) (hadv : Advances q t c c' ts) {a b : Pointer}
    (hab : c.Holds (.flow a b)) (ho : c.Holds (.points a o)) : c'.Due (.points b o) := by
  rcases hadv.due _ (h a b o hab ho) with hb | ⟨m, e, -, heq⟩
  · exact hb
  · cases heq

theorem next (h : Complete q c (.next :: rest)) (hc : c.Grounded q)
    (hadv : Advances q .next c c' ts) (hok : c.next = (c', .ok ts)) :
    Complete q c' (ts ++ rest) := by
  rcases next_spec c with ⟨-, heq⟩ | ⟨l₁, i, l₂, hitems, -, hrest⟩
  · cases hok.symm.trans heq
    exact h.of_adds hc.tidy (adds_refl c) hadv nofun nofun nofun nofun nofun
  have hremain := holds_remain c (l₁ ++ l₂)
  have hordered : Ordered Task.AfterReach c.Reaches rest :=
    h.ordered.2.mono Task.AfterReach.mono fun m hm => hm.elim id nofun
  -- when no object is new, only the worklist has changed
  have hsame : c' = c.remain (l₁ ++ l₂) → (∀ m s b, .exec m s b ∉ ts) →
      Ordered Task.AfterReach c.Reaches (ts ++ rest) →
      Complete q c' (ts ++ rest) := by
    rintro rfl hexecs hordered
    refine h.step hadv h.lowered ?_
      (h.entered_perform hadv nofun rfl nofun) (fun _ _ _ => .inl) (fun _ _ => .inl)
      (fun _ => .inl) (fun _ _ => .inl) (fun m s b hs => absurd hs (hexecs m s b)) hordered
    exact fun a b o hab ho => flowClosed_of_advances h.closed hadv hab ho
  rcases hrest with ⟨p, os, rfl, heq⟩ | ⟨m, e, rfl, heq⟩
  · have hp : ∀ o ∈ os, p ∈ c.analysis.heap.pointers.keys := fun o ho =>
      (hc.knows _ (.inr ⟨_, by simp [hitems], .points ho⟩)).1.1
    rcases takeObjects_spec (c := c.remain (l₁ ++ l₂)) hp with
      ⟨-, heq'⟩ | ⟨c₁, ts₁, heq', hkeeps, hlowered, -, hholds, hitems', hwake, hts⟩
    · cases hok.symm.trans (heq.trans heq')
      exact hsame rfl nofun hordered
    · cases hok.symm.trans (heq.trans heq')
      have hnew : ∀ f, c'.Holds f → c.Holds f ∨ ∃ o ∈ os, f = .points p o := fun f hf =>
        ((hholds f).1 hf).imp_left (hremain f).1
      refine h.step hadv (hlowered q h.lowered) ?_
        (h.entered_perform hadv nofun hkeeps.started nofun) ?_ ?_ ?_ ?_ ?_ ?_
      · intro a b o hab ho
        have hflow : c.Holds (.flow a b) := by simpa using hnew _ hab
        by_cases hold : c.Holds (.points a o)
        · exact flowClosed_of_advances h.closed hadv hflow hold
        · -- the object is new, and is sent on
          obtain ⟨o, ho, heq⟩ := (hnew _ ho).resolve_left hold
          cases heq
          refine .inr ⟨.objects b (os.diff (c.pointsTo p)), ?_,
            .points (OrderedSet.mem_diff.2 ⟨ho, hold⟩)⟩
          rw [hitems']
          exact List.mem_append_right _ (List.mem_map.2 ⟨b, FlowGraph.hasEdge_iff.1 hflow, rfl⟩)
      · intro ctx v o ho
        by_cases hold : c.Holds (.points (.var ctx v) o)
        · exact .inl hold
        · obtain ⟨o, ho, heq⟩ := (hnew _ ho).resolve_left hold
          cases heq
          refine .inr fun s hs => .inr ⟨_, List.mem_append_left _ (hwake ctx v rfl), rfl, hs, ?_⟩
          exact OrderedSet.mem_diff.2 ⟨ho, hold⟩
      · exact fun m e he => .inl (by simpa using hnew _ he)
      · exact fun m hm => .inl (by simpa using hnew _ hm)
      · exact fun m s hs => .inl (by simpa using hnew _ hs)
      · intro m s b hs
        rcases hts _ hs with ⟨e, heq⟩ | ⟨ctx, v, -, heq⟩ <;> cases heq
      · refine h.ordered_perform hadv nofun fun t' ht' N => ?_
        rcases hts t' ht' with ⟨e, rfl⟩ | ⟨ctx, v, -, rfl⟩ <;> trivial
  · rcases takeEdge_spec (c.remain (l₁ ++ l₂)) m e with ⟨-, heq'⟩ | ⟨-, heq'⟩
    · cases hok.symm.trans (heq.trans heq')
      exact hsame rfl nofun hordered
    · cases hok.symm.trans (heq.trans heq')
      refine hsame rfl (by simp) ⟨trivial, .inr rfl, ?_⟩
      exact hordered.mono Task.AfterReach.mono fun m hm => .inl (.inl hm)

/-- The entries become reachable one after the other. -/
theorem ordered_entries {N : CtxMethod → Prop} (l : List MethodId)
    (h : Ordered Task.AfterReach N rest) :
    Ordered Task.AfterReach N
      ((l.flatMap fun m => [.reach ⟨[], m⟩, .enter ⟨[], m⟩]) ++ rest) := by
  induction l generalizing N with
  | nil => exact h
  | cons m l ih =>
    exact ⟨trivial, .inr rfl, ih (h.mono Task.AfterReach.mono fun m hm => .inl (.inl hm))⟩

theorem begin (h : Complete q c (.begin :: rest)) (hc : c.Grounded q)
    (hadv : Advances q .begin c c' ts) (hok : c.begin = (c', .ok ts)) :
    Complete q c' (ts ++ rest) := by
  have hordered : Ordered Task.AfterReach c.Reaches rest :=
    h.ordered.2.mono Task.AfterReach.mono fun m hm => hm.elim id nofun
  have hh : ∀ f, { c with started := true }.Holds f ↔ c.Holds f := fun f => by cases f <;> rfl
  unfold Core.begin at hok
  split at hok <;> rename_i hstarted
  · cases hok
    refine h.step hadv h.lowered h.closed ?_
      (fun _ _ _ => .inl) (fun _ _ => .inl) (fun _ => .inl) (fun _ _ => .inl) nofun hordered
    rcases h.entered with ⟨hnot, -⟩ | hent
    · exact absurd (hstarted.symm.trans hnot) nofun
    · refine .inr fun m hm => (hent m hm).imp_right fun hr => ?_
      rcases List.mem_cons.1 hr with heq | hr
      · cases heq
      · exact hr
  · cases hok
    refine h.step hadv h.lowered h.closed ?_ (fun _ _ _ => .inl) (fun _ _ => .inl)
      (fun _ => .inl) (fun _ _ => .inl) ?_ ?_
    · refine .inr fun m hm => .inr (List.mem_append_left _ (List.mem_cons_of_mem _ ?_))
      exact List.mem_flatMap.2 ⟨m, hc.tidy.entries_eq ▸ hm, by simp⟩
    · intro m s b hs
      simp at hs
    · refine ⟨trivial, ordered_entries _ (hordered.mono Task.AfterReach.mono fun m hm => .inl ?_)⟩
      exact (hh _).2 hm

/-- Every task keeps the promises, unless it fails. -/
theorem perform (h : Complete q c (t :: rest)) (hc : c.Grounded q) (ht : t.Justified q c)
    (hok : c.perform t = (c', .ok ts)) : Complete q c' (ts ++ rest) := by
  have hadv := perform_advances hc ht hok
  cases t with
  | begin => exact h.begin hc hadv hok
  | reach m => exact h.reach hc.tidy hadv hok
  | enter m =>
    cases hok
    exact h.enter hc.tidy hadv
  | exec m s injected =>
    obtain rfl : injected = false := ht.1
    exact h.exec hc hadv ht hok
  | react m s os => exact h.react hc hadv ht hok
  | dispatch m site o => exact h.dispatch hc hadv ht hok
  | wake ctx v delta =>
    cases (wake_eq hc.tidy ht.2.1 ctx delta).symm.trans hok
    refine h.of_adds hc.tidy (adds_refl c) hadv nofun nofun nofun nofun fun t' ht' => .inl ?_
    obtain ⟨s, -, rfl⟩ := List.mem_map.1 ht'
    trivial
  | next => exact h.next hc hadv hok
  | drain =>
    obtain ⟨ts', heq, hts⟩ := drain_spec c
    cases heq.symm.trans hok
    refine h.of_adds hc.tidy (adds_refl c) hadv nofun nofun nofun nofun fun t' ht' => .inl ?_
    rcases hts t' ht' with rfl | rfl <;> trivial
  | record m e => exact h.record hadv hok
  | bind e => exact h.bind hc hadv ht hok
  | announce e =>
    cases hok
    exact h.of_adds hc.tidy (adds_refl c) hadv nofun nofun nofun nofun nofun
  | statistics =>
    cases hok
    exact h.of_adds hc.tidy (adds_statistics c) hadv nofun nofun nofun nofun nofun

end Complete

end Core

end PointsTo
