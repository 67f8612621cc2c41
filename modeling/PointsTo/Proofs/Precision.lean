import PointsTo.Proofs.Solver.Runs
import PointsTo.Proofs.Solver.Tasks

/-!
# Precision

Nothing is found that the rules do not give. In every state of every run without plugins, what holds
and what is on the worklist is derived (`Core.Grounded`), and so are the reasons for the tasks that
are still to be done (`Task.Justified`). An error says that the rules lead to one
(`Problem.Faulty`).

* `Core.perform_grounded`: one task keeps this;
* `Solver.settle_grounded`: so do runs, however they end;
* `Solver.steps_precise`: after any number of steps, everything that was found is derived.
-/

namespace PointsTo

/-- The statement `s` of `m` depends on a variable that can refer to `o`. -/
def Problem.Applies (q : Problem) (m : CtxMethod) (s : StmtId) (o : Obj) : Prop :=
  s ∈ (q.program.code m.method).body ∧
    ∃ v, q.program.base? s = some v ∧ q.Derives (.points (.var m.ctx v) o)

/-- What holds and what is on the worklist is derived, and is known to the state. -/
structure Core.Grounded (q : Problem) (c : Core) : Prop where
  tidy : c.Tidy q
  derives : ∀ f, c.Due f → q.Derives f
  knows : ∀ f, c.Due f → c.Knows f

/-- There is a derivation that calls for the task, and the state is ready for it. -/
def Task.Justified (q : Problem) (c : Core) : Task → Prop
  | .reach m | .enter m => q.Derives (.reach m)
  | .exec m s injected => injected = false ∧ q.Derives (.reach m) ∧ c.IsBuilt m.method ∧
      s ∈ (q.program.code m.method).body
  | .react m s os => q.Derives (.reach m) ∧ c.IsBuilt m.method ∧
      s ∈ (q.program.code m.method).body ∧
      ∀ o ∈ os, q.Applies m s o ∧ o ∈ c.analysis.heap.objs.keys
  | .dispatch m site o => q.Derives (.reach m) ∧ c.IsBuilt m.method ∧ site.ctx = m.ctx ∧
      ∃ s lhs, q.program.stmt? s = some (.call site.site lhs) ∧
        (q.program.site site.site).kind.isDispatched = true ∧
        q.Applies m s o ∧ o ∈ c.analysis.heap.objs.keys
  | .wake ctx v delta => q.Derives (.reach ⟨ctx, v.method⟩) ∧ c.IsBuilt v.method ∧
      ∀ o ∈ delta, q.Derives (.points (.var ctx v) o) ∧ o ∈ c.analysis.heap.objs.keys
  | .record m e => q.Derives (.edge m e) ∧ c.IsBuilt e.site.site.method
  | .bind e => ∃ m, q.Derives (.edge m e) ∧ c.IsBuilt e.site.site.method
  | .begin | .next | .drain | .announce _ | .statistics => True

variable {q : Problem} {c c' : Core} {t : Task} {m : CtxMethod} {s : StmtId} {o : Obj} {f : Fact}

theorem Task.Justified.mono (hb : ∀ m, c.IsBuilt m → c'.IsBuilt m)
    (ho : ∀ o ∈ c.analysis.heap.objs.keys, o ∈ c'.analysis.heap.objs.keys)
    (ht : t.Justified q c) : t.Justified q c' := by
  cases t with
  | reach | enter => exact ht
  | exec m s injected => exact ⟨ht.1, ht.2.1, hb _ ht.2.2.1, ht.2.2.2⟩
  | react m s os =>
    obtain ⟨hm, hbuilt, hs, hos⟩ := ht
    exact ⟨hm, hb _ hbuilt, hs, fun o h => ⟨(hos o h).1, ho o (hos o h).2⟩⟩
  | dispatch m site o =>
    obtain ⟨hm, hbuilt, hctx, s, lhs, hs, hk, ha, hobj⟩ := ht
    exact ⟨hm, hb _ hbuilt, hctx, s, lhs, hs, hk, ha, ho o hobj⟩
  | wake ctx v delta =>
    obtain ⟨hm, hbuilt, hos⟩ := ht
    exact ⟨hm, hb _ hbuilt, fun o h => ⟨(hos o h).1, ho o (hos o h).2⟩⟩
  | record m e => exact ⟨ht.1, hb _ ht.2⟩
  | bind e => exact ht.imp fun m h => ⟨h.1, hb _ h.2⟩
  | begin | next | drain | announce | statistics => trivial

theorem Problem.Applies.derives {f : Fact} (h : q.Applies m s o) (hm : q.Derives (.reach m))
    (hf : q.Reaction m s o f) : q.Derives f := by
  obtain ⟨hs, v, hv, ho⟩ := h
  exact .reaction hm hs hv ho hf

theorem Problem.Applies.isBuilt_site {id : SiteId} {lhs : Option VarId} (h : q.Applies m s o)
    (hs : q.program.stmt? s = some (.call id lhs)) (hb : c.IsBuilt m.method) :
    c.IsBuilt id.method := by
  rw [(Program.site_of_call hs).1, (Program.mem_body_iff.1 h.1).1]
  exact hb

namespace Core

/-- The outcome of a task in a grounded state: the state stays grounded, every task that is called
for is justified, and an error has a cause. -/
structure Outcome.Grounded (q : Problem) (c : Core) (r : Outcome) : Prop where
  grounded : r.1.Grounded q
  keeps : ∀ t : Task, t.Justified q c → t.Justified q r.1
  calls : ∀ ts, r.2 = .ok ts → ∀ t ∈ ts, t.Justified q r.1
  fails : ∀ e, r.2 = .error e → q.Faulty

theorem Keeps.justified (h : c.Keeps c') (t : Task) (ht : t.Justified q c) : t.Justified q c' :=
  ht.mono h.built h.objs

/-- Adding derived facts that are known keeps a state grounded. -/
theorem Grounded.adds (hc : c.Grounded q) {F : Fact → Prop} (h : Adds F c c')
    (hF : ∀ f, F f → q.Derives f ∧ c'.Knows f) : c'.Grounded q := by
  suffices hdue : ∀ f, c'.Due f → q.Derives f ∧ c'.Knows f from
    ⟨h.keeps.tidy q hc.tidy, fun f hf => (hdue f hf).1, fun f hf => (hdue f hf).2⟩
  intro f hf
  rcases h.due_cases hf with hf | hf | ⟨a, b, o, rfl, hab, ho⟩
  · exact ⟨hc.derives f hf, h.keeps.knows (hc.knows f hf)⟩
  · exact hF f hf
  · obtain ⟨hflow, hready⟩ := hF _ hab
    exact ⟨.subset hflow (hc.derives _ (.inl ho)), hready, h.keeps.objs o (hc.knows _ (.inl ho)).2⟩

/-- A state with the same facts is grounded. -/
theorem Grounded.same (hc : c.Grounded q) (hk : c.Keeps c') (hh : ∀ f, c'.Holds f ↔ c.Holds f)
    (hi : c'.worklist.items = c.worklist.items) : c'.Grounded q := by
  have hdue : ∀ f, c'.Due f ↔ c.Due f := fun f => by rw [Due, Due, Awaits, Awaits, hh, hi]
  exact ⟨hk.tidy q hc.tidy, fun f hf => hc.derives f ((hdue f).1 hf),
    fun f hf => hk.knows (hc.knows f ((hdue f).1 hf))⟩

theorem Grounded.lower (hc : c.Grounded q) (m : MethodId) : (c.lower m).2.Grounded q :=
  hc.same (keeps_lower hc.tidy m) (holds_withElements c _) rfl

/-! ### One task -/

theorem grounded_proceed (hc : c.Grounded q) {ts : List Task} (hts : ∀ t ∈ ts, t.Justified q c) :
    Outcome.Grounded q c (c.proceed ts) :=
  ⟨hc, fun _ => id, by rintro _ ⟨⟩; exact hts, nofun⟩

theorem exec_grounded (hc : c.Grounded q) (ht : (Task.exec m s false).Justified q c) :
    Outcome.Grounded q c (c.exec m s false) := by
  obtain ⟨-, hm, hb, hs⟩ := ht
  obtain ⟨ts, hts, hadds, hknows, hcalls⟩ := exec_spec hc.tidy hs hb
  refine ⟨hc.adds hadds fun f hf => ⟨.effect hm hs hf, hknows f hf⟩, hadds.keeps.justified, ?_, ?_⟩
  · intro ts' hts' t ht
    cases hts.symm.trans hts'
    rcases hcalls t ht with ⟨e, rfl⟩ | ⟨v, os, rfl, hv, hos⟩
    · trivial
    · refine ⟨hm, hadds.keeps.built _ hb, hs, fun o ho => ⟨⟨hs, v, hv, ?_⟩, ?_⟩⟩
      · exact hc.derives _ (.inl (hos o ho))
      · exact hadds.keeps.objs o (hc.knows _ (.inl (hos o ho))).2
  · intro e he
    cases hts.symm.trans he

theorem react_grounded {os : PointsToSet} (hc : c.Grounded q)
    (ht : (Task.react m s os).Justified q c) : Outcome.Grounded q c (c.react m s os) := by
  obtain ⟨hm, hb, hs, hos⟩ := ht
  rcases react_spec hc.tidy hs hb os with ⟨hok, hadds, hknows, -⟩ | ⟨id, lhs, hcall, hk, heq⟩
  · refine ⟨hc.adds hadds ?_, hadds.keeps.justified, ?_, ?_⟩
    · rintro f ⟨o, ho, hf⟩
      exact ⟨(hos o ho).1.derives hm hf, hknows o f hf ho⟩
    · intro ts hts
      cases hok.symm.trans hts
      exact fun t ht => nomatch ht
    · intro e he
      cases hok.symm.trans he
  · rw [heq]
    refine grounded_proceed hc fun t ht => ?_
    obtain ⟨o, ho, rfl⟩ := List.mem_map.1 ht
    exact ⟨hm, hb, rfl, s, lhs, hcall, hk, hos o ho⟩

theorem dispatch_grounded {site : CtxSite} (hc : c.Grounded q)
    (ht : (Task.dispatch m site o).Justified q c) : Outcome.Grounded q c (c.dispatch m site o) := by
  obtain ⟨ctx, id⟩ := site
  obtain ⟨hm, hb, rfl, s, lhs, hs, hk, ha, ho⟩ := ht
  have hid := ha.isBuilt_site hs hb
  have hreaction : ∀ f, q.Dispatched m id o f → q.Derives f :=
    fun f hf => ha.derives hm (.call hs hk hf)
  rcases dispatch_spec (m := m) hc.tidy hid ho with
    ⟨hnone, hadds, e, he⟩ | ⟨callee, c₁, htarget, hedge, hrest⟩
  · refine ⟨hc.adds hadds nofun, hadds.keeps.justified, ?_, fun _ _ => ?_⟩
    · intro ts hts
      cases he.symm.trans hts
    · obtain ⟨hbody, v, hv, hpoints⟩ := ha
      exact .dispatch hm hbody hv hpoints hs hk hnone
  · have hc₁ : c₁.Grounded q := by
      refine hc.adds hedge ?_
      rintro f rfl
      exact ⟨hreaction _ (.edge htarget), hedge.keeps.built _ hid⟩
    rcases hrest with ⟨e, heq, hlow⟩ | ⟨c₂, heq, hthis, hready⟩
    · rw [heq]
      refine ⟨hc₁.lower callee, fun t ht => ?_, nofun, fun _ _ => ?_⟩
      · exact (keeps_lower hc₁.tidy callee).justified t (hedge.keeps.justified t ht)
      · exact .lowering (.callee (hreaction _ (.edge htarget))) hlow
    · rw [heq]
      have hkeeps := hedge.keeps.trans hthis.keeps
      refine ⟨hc₁.adds hthis ?_, hkeeps.justified, ?_, nofun⟩
      · rintro f ⟨this, hthis', rfl⟩
        exact ⟨hreaction _ (.this htarget hthis'), hready this hthis', hkeeps.objs o ho⟩
      · rintro ts ⟨⟩
        exact fun t ht => nomatch ht

theorem wake_grounded {ctx : Context} {v : VarId} {delta : PointsToSet} (hc : c.Grounded q)
    (ht : (Task.wake ctx v delta).Justified q c) : Outcome.Grounded q c (c.wake ctx v delta) := by
  obtain ⟨hm, hb, hos⟩ := ht
  rw [wake_eq hc.tidy hb]
  refine grounded_proceed hc fun t ht => ?_
  obtain ⟨s, hs, rfl⟩ := List.mem_map.1 ht
  obtain ⟨hbody, hv⟩ := Program.mem_dependents_iff.1 hs
  exact ⟨hm, hb, hbody, fun o ho => ⟨⟨hbody, v, hv, (hos o ho).1⟩, (hos o ho).2⟩⟩

theorem reach_grounded (hc : c.Grounded q) (hm : q.Derives (.reach m)) :
    Outcome.Grounded q c (c.reach m) := by
  by_cases hmem : m ∈ c.analysis.calls.methods
  · rw [reach_of_mem hmem]
    exact grounded_proceed hc nofun
  · rcases reach_spec hc.tidy hmem with ⟨e, he, heq⟩ | ⟨c', ts, heq, hadds, hb, -, hcalls⟩
    · have hadd := adds_addMethod c m
      have hc₁ := hc.adds hadd (by rintro f rfl; exact ⟨hm, trivial⟩)
      rw [heq]
      refine ⟨hc₁.lower m.method, fun t ht => ?_, nofun, fun _ _ => .lowering hm he⟩
      exact (keeps_lower hc₁.tidy _).justified t (hadd.keeps.justified t ht)
    · rw [heq]
      refine ⟨hc.adds hadds ?_, hadds.keeps.justified, ?_, nofun⟩
      · rintro f rfl
        exact ⟨hm, trivial⟩
      · rintro ts' ⟨⟩ t ht
        rcases hcalls t ht with ⟨e, rfl⟩ | ⟨s, hs, rfl⟩
        · trivial
        · exact ⟨rfl, hm, hb, hs⟩

theorem record_grounded {e : CtxEdge} (hc : c.Grounded q) (ht : (Task.record m e).Justified q c) :
    Outcome.Grounded q c (c.record m e) := by
  obtain ⟨he, hb⟩ := ht
  obtain ⟨c', heq, hkeeps, -, hw, hholds⟩ := record_spec c m e
  rw [heq]
  have hm : q.Derives (.reach m) := he.home.2.1
  have hdue : ∀ f, c'.Due f → q.Derives f ∧ c'.Knows f := by
    rintro f (hf | hf)
    · rcases (hholds f).1 hf with hf | ⟨-, rfl | rfl | rfl⟩
      · exact ⟨hc.derives f (.inl hf), hkeeps.knows (hc.knows f (.inl hf))⟩
      · exact ⟨he, hkeeps.built _ hb⟩
      · exact ⟨hm, trivial⟩
      · exact ⟨.callee he, trivial⟩
    · replace hf : c.Awaits f := (awaits_congr hw).1 hf
      exact ⟨hc.derives f (.inr hf), hkeeps.knows (hc.knows f (.inr hf))⟩
  refine ⟨⟨hkeeps.tidy q hc.tidy, fun f hf => (hdue f hf).1, fun f hf => (hdue f hf).2⟩,
    hkeeps.justified, ?_, nofun⟩
  rintro ts ⟨⟩ t ht
  simp only [List.mem_cons, List.not_mem_nil, or_false] at ht
  rcases ht with rfl | rfl
  · trivial
  · exact ⟨m, he, hkeeps.built _ hb⟩

theorem bind_grounded {e : CtxEdge} (hc : c.Grounded q) (ht : (Task.bind e).Justified q c) :
    Outcome.Grounded q c (c.bind e) := by
  obtain ⟨m, he, hb⟩ := ht
  obtain ⟨-, -, -, s, lhs, hs⟩ := he.home
  rcases bind_spec hc.tidy hb hs with ⟨err, heq, herr⟩ | ⟨c', heq, hadds, hknows⟩
  · rw [heq]
    exact ⟨hc.lower _, (keeps_lower hc.tidy _).justified, nofun,
      fun _ _ => .lowering (.callee he) herr⟩
  · rw [heq]
    refine ⟨?_, hadds.keeps.justified, ?_, nofun⟩
    · exact hc.adds hadds fun f hf => ⟨.binding he hf, hknows f hf⟩
    · rintro ts ⟨⟩
      exact fun t ht => nomatch ht

theorem Grounded.remain (hc : c.Grounded q) {items : List WorkItem}
    (h : ∀ i ∈ items, i ∈ c.worklist.items) : (c.remain items).Grounded q := by
  have hdue : ∀ f, (c.remain items).Due f → c.Due f := fun f hf =>
    hf.imp (holds_remain c items f).1 fun ⟨i, hi, hif⟩ => ⟨i, h i hi, hif⟩
  exact ⟨(keeps_remain c items).tidy q hc.tidy, fun f hf => hc.derives f (hdue f hf),
    fun f hf => (keeps_remain c items).knows (hc.knows f (hdue f hf))⟩

theorem takeObjects_grounded {p : Pointer} {os : PointsToSet} (hc : c.Grounded q)
    (hos : ∀ o ∈ os, q.Derives (.points p o) ∧ c.Knows (.points p o)) :
    Outcome.Grounded q c (c.takeObjects p os) := by
  rcases takeObjects_spec fun o ho => (hos o ho).2.1.1 with
    ⟨-, heq⟩ | ⟨c', ts, heq, hkeeps, -, ⟨o₀, ho₀, -⟩, hholds, hitems, -, hcalls⟩
  · rw [heq]
    exact grounded_proceed hc nofun
  · have hdelta : ∀ o ∈ os.diff (c.pointsTo p), q.Derives (.points p o) ∧ c'.Knows (.points p o) :=
      fun o ho => ⟨(hos o (OrderedSet.mem_diff.1 ho).1).1,
        hkeeps.knows (hos o (OrderedSet.mem_diff.1 ho).1).2⟩
    have hdue : ∀ f, c'.Due f → q.Derives f ∧ c'.Knows f := by
      rintro f (hf | ⟨i, hi, hif⟩)
      · rcases (hholds f).1 hf with hf | ⟨o, ho, rfl⟩
        · exact ⟨hc.derives f (.inl hf), hkeeps.knows (hc.knows f (.inl hf))⟩
        · exact ⟨(hos o ho).1, hkeeps.knows (hos o ho).2⟩
      · rw [hitems, List.mem_append] at hi
        rcases hi with hi | hi
        · exact ⟨hc.derives f (.inr ⟨i, hi, hif⟩), hkeeps.knows (hc.knows f (.inr ⟨i, hi, hif⟩))⟩
        · -- the new objects are sent along the edges of the flow graph
          obtain ⟨b, hb, rfl⟩ := List.mem_map.1 hi
          have hflow : c.Due (.flow p b) := .inl (FlowGraph.hasEdge_iff.2 hb)
          cases hif with
          | points ho =>
            obtain ⟨hd, hk⟩ := hdelta _ ho
            exact ⟨.subset (hc.derives _ hflow) hd, hkeeps.ready (hc.knows _ hflow), hk.2⟩
    rw [heq]
    refine ⟨⟨hkeeps.tidy q hc.tidy, fun f hf => (hdue f hf).1, fun f hf => (hdue f hf).2⟩,
      hkeeps.justified, ?_, nofun⟩
    rintro ts' ⟨⟩ t ht
    rcases hcalls t ht with ⟨e, rfl⟩ | ⟨ctx, v, rfl, rfl⟩
    · trivial
    · obtain ⟨hd, hk⟩ := hos o₀ ho₀
      exact ⟨hd.home.1.1, hkeeps.built _ (hk.1.2 ctx v rfl), fun o ho =>
        ⟨(hdelta o ho).1, (hdelta o ho).2.2⟩⟩

theorem takeEdge_grounded {e : CtxEdge} (hc : c.Grounded q) (he : q.Derives (.edge m e))
    (hk : c.Knows (.edge m e)) : Outcome.Grounded q c (c.takeEdge m e) := by
  rcases takeEdge_spec c m e with ⟨-, heq⟩ | ⟨-, heq⟩ <;> rw [heq]
  · exact grounded_proceed hc nofun
  · refine grounded_proceed hc fun t ht => ?_
    simp only [List.mem_cons, List.not_mem_nil, or_false] at ht
    rcases ht with rfl | rfl
    · exact .callee he
    · exact ⟨he, hk⟩

theorem next_grounded (hc : c.Grounded q) : Outcome.Grounded q c c.next := by
  rcases next_spec c with ⟨-, heq⟩ | ⟨l₁, i, l₂, hitems, -, hrest⟩
  · rw [heq]
    exact grounded_proceed hc nofun
  · have hi : i ∈ c.worklist.items := by simp [hitems]
    have hc₀ : (c.remain (l₁ ++ l₂)).Grounded q := hc.remain fun j hj => by
      rw [hitems]
      rcases List.mem_append.1 hj with hj | hj
      · exact List.mem_append_left _ hj
      · exact List.mem_append_right _ (List.mem_cons_of_mem i hj)
    have hkeeps := keeps_remain c (l₁ ++ l₂)
    have hdue : ∀ f, i.Carries f → q.Derives f ∧ (c.remain (l₁ ++ l₂)).Knows f := fun f hf =>
      ⟨hc.derives f (.inr ⟨i, hi, hf⟩), hkeeps.knows (hc.knows f (.inr ⟨i, hi, hf⟩))⟩
    have htake : Outcome.Grounded q (c.remain (l₁ ++ l₂)) c.next := by
      rcases hrest with ⟨p, os, rfl, heq⟩ | ⟨m, e, rfl, heq⟩
      · rw [heq]
        exact takeObjects_grounded hc₀ fun o ho => hdue _ (.points ho)
      · rw [heq]
        exact takeEdge_grounded hc₀ (hdue _ .edge).1 (hdue _ .edge).2
    exact ⟨htake.grounded, fun t ht => htake.keeps t (hkeeps.justified t ht), htake.calls,
      htake.fails⟩

theorem begin_grounded (hc : c.Grounded q) : Outcome.Grounded q c c.begin := by
  unfold begin
  split
  · exact grounded_proceed hc nofun
  · have hdue : ∀ f, { c with started := true }.Due f ↔ c.Due f := fun f => by cases f <;> rfl
    refine ⟨⟨hc.tidy.of_setting_eq rfl hc.tidy.calls,
      fun f hf => hc.derives f ((hdue f).1 hf), fun f hf => ?_⟩,
      fun t ht => ht.mono (fun _ => id) (fun _ => id), ?_, nofun⟩
    · have hk := hc.knows f ((hdue f).1 hf)
      cases f <;> exact hk
    · rintro ts ⟨⟩ t ht
      rcases List.mem_cons.1 ht with rfl | ht
      · trivial
      · obtain ⟨m, hm, ht⟩ := List.mem_flatMap.1 ht
        have hentry : q.Derives (.reach ⟨[], m⟩) := .entry (hc.tidy.entries_eq ▸ hm)
        simp only [List.mem_cons, List.not_mem_nil, or_false] at ht
        rcases ht with rfl | rfl <;> exact hentry

/-- Every task that is justified keeps a grounded state grounded. -/
theorem perform_grounded (hc : c.Grounded q) (ht : t.Justified q c) :
    Outcome.Grounded q c (c.perform t) := by
  cases t with
  | begin => exact begin_grounded hc
  | reach m => exact reach_grounded hc ht
  | enter m =>
    have hadd := adds_addEntry c m
    refine ⟨hc.adds hadd (by rintro f rfl; exact ⟨ht, trivial⟩), hadd.keeps.justified, ?_, nofun⟩
    rintro ts ⟨⟩
    exact fun t ht => nomatch ht
  | exec m s injected =>
    obtain rfl : injected = false := ht.1
    exact exec_grounded hc ht
  | react m s os => exact react_grounded hc ht
  | dispatch m site o => exact dispatch_grounded hc ht
  | wake ctx v delta => exact wake_grounded hc ht
  | next => exact next_grounded hc
  | drain =>
    obtain ⟨ts, heq, hts⟩ := drain_spec c
    show Outcome.Grounded q c c.drain
    rw [heq]
    refine grounded_proceed hc fun t ht => ?_
    rcases hts t ht with rfl | rfl <;> trivial
  | record m e => exact record_grounded hc ht
  | bind e => exact bind_grounded hc ht
  | announce e => exact grounded_proceed hc nofun
  | statistics =>
    have hadds := adds_statistics c
    refine ⟨hc.adds hadds nofun, hadds.keeps.justified, ?_, nofun⟩
    rintro ts ⟨⟩
    exact fun t ht => nomatch ht

/-- After a task the state is grounded and all tasks to be done are justified. -/
theorem Grounded.step {ts rest : List Task} (hc : c.Grounded q)
    (hts : ∀ t' ∈ t :: rest, t'.Justified q c) (hok : c.perform t = (c', .ok ts)) :
    c'.Grounded q ∧ ∀ t' ∈ ts ++ rest, t'.Justified q c' := by
  have hout := perform_grounded hc (hts t List.mem_cons_self)
  rw [hok] at hout
  refine ⟨hout.grounded, fun t' ht' => ?_⟩
  rcases List.mem_append.1 ht' with ht' | ht'
  · exact hout.calls ts rfl t' ht'
  · exact hout.keeps t' (hts t' (List.mem_cons_of_mem t ht'))

/-- Everything that was found, or that is on the worklist, is derived. -/
structure Precise (q : Problem) (c : Core) : Prop where
  methods : ∀ m ∈ c.analysis.calls.methods, q.Derives (.reach m)
  sites : ∀ m, ∀ s ∈ c.analysis.calls.sitesIn m, q.Derives (.site m s)
  calls : ∀ m e, (m, e) ∈ c.analysis.calls.calls → q.Derives (.edge m e)
  points : ∀ p, ∀ o ∈ c.pointsTo p, q.Derives (.points p o)
  flow : ∀ a b, c.flow.hasEdge a b = true → q.Derives (.flow a b)
  objects : ∀ p os, .objects p os ∈ c.worklist.items → ∀ o ∈ os, q.Derives (.points p o)
  edges : ∀ m e, .edge m e ∈ c.worklist.items → q.Derives (.edge m e)

theorem Grounded.precise (hc : c.Grounded q) : c.Precise q where
  methods m h := hc.derives (.reach m) (.inl h)
  sites m s h := hc.derives (.site m s) (.inl h)
  calls m e h := hc.derives (.edge m e) (.inl h)
  points p o h := hc.derives (.points p o) (.inl h)
  flow a b h := hc.derives (.flow a b) (.inl h)
  objects p _ h o ho := hc.derives (.points p o) (.inr ⟨_, h, .points ho⟩)
  edges m e h := hc.derives (.edge m e) (.inr ⟨_, h, .edge⟩)

end Core

/-! ### Runs -/

/-- Before a run nothing was found. -/
theorem Problem.not_due_solver (q : Problem) (order : WorklistOrder) (f : Fact) :
    ¬ (q.solver order).core.Due f := by
  rintro (hf | ⟨i, hi, -⟩)
  · cases f with
    | reach m => exact OrderedSet.not_mem_empty m hf
    | site m s => exact absurd hf (List.not_mem_nil (a := s))
    | edge m e => exact absurd hf (List.not_mem_nil (a := (m, e)))
    | points p o => exact OrderedSet.not_mem_empty o hf
    | flow a b => exact Bool.false_ne_true hf
  · exact List.not_mem_nil hi

theorem Problem.grounded_solver (q : Problem) (order : WorklistOrder) :
    (q.solver order).core.Grounded q where
  tidy :=
    { program_eq := (Elements.fresh_spec q.program q.entries).1
      policy_eq := rfl
      entries_eq := rfl
      ignored_eq := rfl
      watchers_eq := rfl
      faithful := .fresh q.program q.entries
      typed := fun _ _ h => nomatch h
      calls := CallGraph.consistent_empty }
  derives f hf := absurd hf (q.not_due_solver order f)
  knows f hf := absurd hf (q.not_due_solver order f)

namespace Solver

variable {s : Solver .idle} {fuel : Nat}

/-- A run keeps a grounded state grounded, however it ends. A failure has a cause. -/
theorem settle_grounded {agenda : List Task} (hs : s.core.Grounded q)
    (ha : ∀ t ∈ agenda, t.Justified q s.core) :
    (s.settle fuel agenda).1.core.Grounded q ∧
      ∀ e, (s.settle fuel agenda).2 = .failed e → q.Faulty := by
  have hinv := settle_invariant (s := s) fuel
    (I := fun c ts => c.Grounded q ∧ ∀ t ∈ ts, t.Justified q c)
    (E := fun c => c.Grounded q ∧ q.Faulty) ?_ ?_ ⟨hs, ha⟩
  · cases hv : (s.settle fuel agenda).2 with
    | done a =>
      rw [hv] at hinv
      exact ⟨hinv.1, nofun⟩
    | failed e =>
      rw [hv] at hinv
      exact ⟨hinv.1, fun _ _ => hinv.2⟩
    | unfinished =>
      rw [hv] at hinv
      exact ⟨hinv.elim fun _ h => h.1, nofun⟩
  · rintro c t rest ts ⟨hc, hts⟩ hok
    exact hc.step hts (Prod.ext rfl hok)
  · rintro c t rest e ⟨hc, hts⟩ herr
    have ht := Core.perform_grounded hc (hts t List.mem_cons_self)
    exact ⟨ht.grounded, ht.fails e herr⟩

/-- A step keeps a grounded state grounded, also when it fails. -/
theorem step_grounded (hs : s.core.Grounded q) (fuel : Nat) : (s.step fuel).1.core.Grounded q := by
  have hstart : (s.start fuel).1.core.Grounded q :=
    (settle_grounded hs fun t ht => by rw [List.mem_singleton.1 ht]; trivial).1
  have hnext : ((s.start fuel).1.settle fuel [.next]).1.core.Grounded q :=
    (settle_grounded hstart fun t ht => by rw [List.mem_singleton.1 ht]; trivial).1
  unfold step
  split
  · rename_i s₁ h₁
    rw [h₁] at hnext
    split <;> rename_i h₂ <;> rw [h₂] at hnext <;> exact hnext
  · rename_i h₁
    rw [h₁] at hstart
    exact hstart
  · rename_i h₁
    rw [h₁] at hstart
    exact hstart

theorem steps_grounded (hs : s.core.Grounded q) (bounds : List Nat) :
    (s.steps bounds).core.Grounded q := by
  induction bounds generalizing s with
  | nil => exact hs
  | cons fuel bounds ih => exact ih (step_grounded hs fuel)

/-- After any number of steps, including steps that fail, whatever was found or is on the worklist
is derived. -/
theorem steps_precise (q : Problem) (order : WorklistOrder) (bounds : List Nat) :
    ((q.solver order).steps bounds).core.Precise q :=
  (steps_grounded (q.grounded_solver order) bounds).precise

end Solver

end PointsTo
