import PointsTo.Proofs.Solver.Obligations

/-!
# When the oldest item comes first

If the worklist is a queue, a method is reachable before anything flows into its variables: the call
edge was put on the worklist before the object that the callee receives, so it is taken up before.
Hence no method gets into the call graph without having been run.

* `Queued`: each item is about methods that are reachable when its turn comes;
* `Core.InOrder`: the same for the tasks that are to be done, with the worklist;
* `Core.InOrder.perform`: every task keeps it;
* `Core.InOrder.ran`: all methods of the call graph were run.
-/

namespace PointsTo

/-- The variable belongs to a method of `N`. -/
def Pointer.In (N : CtxMethod → Prop) : Pointer → Prop
  | .var ctx v => N ⟨ctx, v.method⟩
  | .field _ _ => True

/-- What a fact brings is for methods of `N`. -/
def Fact.In (N : CtxMethod → Prop) : Fact → Prop
  | .points p _ => p.In N
  | .flow _ b => b.In N
  | .edge m _ => N m
  | .reach _ | .site _ _ => True

/-- Each item brings facts for methods that are reachable by then: those of `N`, and the callees of
the items before it. -/
def Queued (N : CtxMethod → Prop) : List WorkItem → Prop
  | [] => True
  | i :: items => (∀ f, i.Carries f → f.In N) ∧
      Queued (fun m => N m ∨ ∃ caller e, i = .edge caller e ∧ m = e.callee) items

/-- The task is about methods of `N`, and what it takes up is so as well. -/
def Task.InTime (items : List WorkItem) (N : CtxMethod → Prop) : Task → Prop
  | .enter m | .exec m _ _ | .react m _ _ | .dispatch m _ _ => N m
  | .wake ctx v _ => N ⟨ctx, v.method⟩
  | .record m e => N m ∧ N e.callee
  | .bind e => N ⟨e.site.ctx, e.site.site.method⟩ ∧ N e.callee
  | .next | .drain => Queued N items
  | .begin | .reach _ | .announce _ | .statistics => True

section

variable {N N' : CtxMethod → Prop} {items more : List WorkItem}

theorem Pointer.In.mono {p : Pointer} (h : p.In N) (hN : ∀ m, N m → N' m) : p.In N' := by
  cases p with
  | var ctx v => exact hN _ h
  | field o x => trivial

theorem Pointer.in_var {m : CtxMethod} {v : VarId} (hm : N m) (hv : v.method = m.method) :
    (Pointer.var m.ctx v).In N := by
  show N ⟨m.ctx, v.method⟩
  rw [hv]
  exact hm

theorem Fact.In.mono {f : Fact} (h : f.In N) (hN : ∀ m, N m → N' m) : f.In N' := by
  cases f with
  | points p o => exact Pointer.In.mono h hN
  | flow a b => exact Pointer.In.mono h hN
  | edge m e => exact hN m h
  | reach | site => trivial

theorem Queued.mono (h : Queued N items) (hN : ∀ m, N m → N' m) : Queued N' items := by
  induction items generalizing N N' with
  | nil => trivial
  | cons i items ih => exact ⟨fun f hf => (h.1 f hf).mono hN, ih h.2 fun m => Or.imp_left (hN m)⟩

theorem queued_of_forall (h : ∀ i ∈ items, ∀ f, i.Carries f → f.In N) : Queued N items := by
  induction items generalizing N with
  | nil => trivial
  | cons i items ih =>
    refine ⟨h i List.mem_cons_self, ih fun j hj f hf => ?_⟩
    exact (h j (List.mem_cons_of_mem i hj) f hf).mono fun m => .inl

/-- New items may be about the callees of all items before them. -/
theorem Queued.append (h : Queued N items)
    (hmore : ∀ M : CtxMethod → Prop, (∀ m, N m → M m) →
      (∀ m e, .edge m e ∈ items → M e.callee) → ∀ i ∈ more, ∀ f, i.Carries f → f.In M) :
    Queued N (items ++ more) := by
  induction items generalizing N with
  | nil => exact queued_of_forall (hmore N (fun _ => id) nofun)
  | cons i items ih =>
    refine ⟨h.1, ih h.2 fun M hM hcallees => hmore M (fun m hm => hM m (.inl hm)) ?_⟩
    intro m e he
    rcases List.mem_cons.1 he with rfl | he
    · exact hM _ (.inr ⟨m, e, rfl, rfl⟩)
    · exact hcallees m e he

theorem Task.InTime.imp {items' : List WorkItem} {t : Task} (h : t.InTime items N)
    (hN : ∀ m, N m → N' m) (hitems : Queued N items → Queued N' items') : t.InTime items' N' := by
  cases t with
  | enter | exec | react | dispatch | wake => exact hN _ h
  | record | bind => exact ⟨hN _ h.1, hN _ h.2⟩
  | next | drain => exact hitems h
  | begin | reach | announce | statistics => trivial

end

namespace Core

variable {q : Problem} {c c' : Core} {t : Task} {ts rest : List Task} {m : CtxMethod} {s : StmtId}
  {o : Obj} {e : CtxEdge} {F : Fact → Prop}

/-- The worklist is a queue, and everything is about methods that are reachable in time. -/
structure InOrder (q : Problem) (c : Core) (tasks : List Task) : Prop where
  fifo : c.worklist.order = .fifo
  inTime : Ordered (Task.InTime c.worklist.items) c.Reaches tasks
  flows : ∀ a b, c.Holds (.flow a b) → b.In c.Reaches
  callers : ∀ m e, c.Holds (.edge m e) → c.Ran q tasks m

/-- All methods of the call graph were run. -/
theorem InOrder.ran {tasks : List Task} (h : InOrder q c tasks) (hcomp : Complete q c tasks)
    (hm : c.Holds (.reach m)) : c.Ran q tasks m :=
  (hcomp.ran m hm).elim id fun ⟨e, he⟩ => h.callers m e he

/-- The tasks stay in time when facts are added for methods that are reachable in time. -/
theorem ordered_of_adds {N N' : CtxMethod → Prop} {tasks : List Task} (hadds : Adds F c c')
    (h : Ordered (Task.InTime c.worklist.items) N tasks) (hN : ∀ m, N m → N' m)
    (hF : ∀ M : CtxMethod → Prop, (∀ m, N' m → M m) →
      (∀ m e, .edge m e ∈ c.worklist.items → M e.callee) → ∀ f, F f → f.In M) :
    Ordered (Task.InTime c'.worklist.items) N' tasks := by
  obtain ⟨more, hmore, hcarries⟩ := hadds.queue
  refine h.imp (fun M M' _ hM' hMM t ht => ht.imp hMM fun hq => ?_) hN
  rw [hmore]
  refine (hq.mono hMM).append fun M₂ hM₂ hcallees i hi f hf => ?_
  have hF' := hF M₂ (fun m hm => hM₂ m (hM' m hm)) hcallees
  rcases hcarries i hi f hf with hf | ⟨a, b, o, rfl, hab, -⟩
  · exact hF' f hf
  · exact hF' (.flow a b) hab

namespace InOrder

/-- A task that adds facts for reachable methods keeps the order. -/
theorem of_adds (h : InOrder q c (t :: rest)) (hadds : Adds F c c') (hadv : Advances q t c c' ts)
    (hF : ∀ f, F f → f.In c'.Reaches)
    (hreached : ∀ m, t = .reach m → c'.Holds (.reach m))
    (hts : ∀ M : CtxMethod → Prop, (∀ m, c'.Holds (.reach m) → M m) →
      ∀ t' ∈ ts, t'.InTime c'.worklist.items M) : InOrder q c' (ts ++ rest) where
  fifo := hadds.keeps.order.trans h.fifo
  inTime := by
    refine Ordered.append hts fun M hM => ?_
    refine ordered_of_adds hadds h.inTime.2 (fun m hm => hM m ?_) fun M' hM' _ f hf =>
      (hF f hf).mono fun m hm => hM' m (hM m hm)
    exact hm.elim hadds.holds_of_holds (hreached m)
  flows a b hab := by
    rcases (hadds.holds _).1 hab with hab | ⟨hab, -⟩
    · exact (h.flows a b hab).mono fun m => hadds.holds_of_holds
    · exact hF _ hab
  callers m e he :=
    hadv.ran_of_ran (h.callers m e ((hadds.holds_iff_of_isWork (f := .edge m e) trivial).1 he))

theorem reach (h : InOrder q c (.reach m :: rest)) (hc : c.Tidy q)
    (hadv : Advances q (.reach m) c c' ts) (hok : c.reach m = (c', .ok ts)) :
    InOrder q c' (ts ++ rest) := by
  by_cases hm : m ∈ c.analysis.calls.methods
  · cases hok.symm.trans (reach_of_mem hm)
    refine h.of_adds (adds_refl c) hadv nofun ?_ nofun
    rintro m' ⟨⟩
    exact hm
  · rcases reach_spec hc hm with ⟨e, -, heq⟩ | ⟨c₁, ts₁, heq, hadds, -, -, hts⟩
    · cases hok.symm.trans heq
    · cases hok.symm.trans heq
      have hm' : c'.Holds (.reach m) := (hadds.holds _).2 (.inr ⟨rfl, id⟩)
      refine h.of_adds hadds hadv (by rintro f rfl; trivial) ?_ fun M hM t' ht' => ?_
      · rintro m' ⟨⟩
        exact hm'
      · rcases hts t' ht' with ⟨e, rfl⟩ | ⟨s, -, rfl⟩
        · trivial
        · exact hM m hm'

theorem exec (h : InOrder q c (.exec m s false :: rest)) (hc : c.Grounded q)
    (hadv : Advances q (.exec m s false) c c' ts) (ht : (Task.exec m s false).Justified q c)
    (hok : c.exec m s false = (c', .ok ts)) : InOrder q c' (ts ++ rest) := by
  obtain ⟨-, -, hb, hs⟩ := ht
  obtain ⟨ts', hts', hadds, -, hcalls⟩ := exec_spec hc.tidy hs hb
  rw [hok] at hts' hadds
  cases hts'
  have hm : c'.Holds (.reach m) := hadds.holds_of_holds h.inTime.1
  refine h.of_adds hadds hadv (fun f hf => ?_) nofun fun M hM t' ht' => ?_
  · cases hf with
    | alloc hst => exact Pointer.in_var (N := c'.Reaches) hm (Problem.fits_of_mem_body hs hst).1
    | assign hst => exact Pointer.in_var (N := c'.Reaches) hm (Problem.fits_of_mem_body hs hst).1.1
    | site => trivial
    | call => exact hm
  · rcases hcalls t' ht' with ⟨e, rfl⟩ | ⟨v, os, rfl, -⟩
    · trivial
    · exact hM m hm

theorem react {os : PointsToSet} (h : InOrder q c (.react m s os :: rest)) (hc : c.Grounded q)
    (hadv : Advances q (.react m s os) c c' ts) (ht : (Task.react m s os).Justified q c)
    (hok : c.react m s os = (c', .ok ts)) : InOrder q c' (ts ++ rest) := by
  obtain ⟨-, hb, hs, -⟩ := ht
  rcases react_spec hc.tidy hs hb os with ⟨hts, hadds, -, hno⟩ | ⟨id, lhs, -, -, heq⟩
  · rw [hok] at hts hadds
    cases hts
    have hm : c'.Holds (.reach m) := hadds.holds_of_holds h.inTime.1
    refine h.of_adds hadds hadv ?_ nofun nofun
    rintro f ⟨o, -, hf⟩
    cases hf with
    | load hst => exact Pointer.in_var (N := c'.Reaches) hm (Problem.fits_of_mem_body hs hst).1.1
    | store => trivial
    | call hst hk => exact absurd hk (hno _ _ hst)
  · cases hok.symm.trans heq
    refine h.of_adds (adds_refl c) hadv nofun nofun fun M hM t' ht' => ?_
    obtain ⟨o, -, rfl⟩ := List.mem_map.1 ht'
    exact hM m h.inTime.1

/-- The edge comes before the object, so that the callee is reachable when the object arrives. -/
theorem dispatch {site : CtxSite} (h : InOrder q c (.dispatch m site o :: rest))
    (hc : c.Grounded q) (hadv : Advances q (.dispatch m site o) c c' ts)
    (ht : (Task.dispatch m site o).Justified q c)
    (hok : c.dispatch m site o = (c', .ok ts)) : InOrder q c' (ts ++ rest) := by
  obtain ⟨ctx, id⟩ := site
  obtain ⟨-, hb, rfl, s, lhs, hs, -, ha, ho⟩ := ht
  have hid := ha.isBuilt_site hs hb
  rcases dispatch_spec (m := m) hc.tidy hid ho with
    ⟨-, -, e, he⟩ | ⟨callee, c₁, -, hedge, ⟨e, heq, -⟩ | ⟨c₂, heq, hthis, -⟩⟩
  · rw [hok] at he
    cases he
  · cases hok.symm.trans heq
  cases hok.symm.trans heq
  have hadds := hedge.trans hthis
  refine ⟨hadds.keeps.order.trans h.fifo, ?_, fun a b hab => ?_, fun m' e he => ?_⟩
  · have hm : c.Holds (.reach m) := h.inTime.1
    have h₁ : Ordered (Task.InTime c₁.worklist.items) c'.Reaches rest := by
      refine ordered_of_adds hedge h.inTime.2 (fun m' hm' => ?_) ?_
      · exact hm'.elim hadds.holds_of_holds nofun
      · rintro M hM - f rfl
        exact hM m (hadds.holds_of_holds hm)
    refine ordered_of_adds hthis h₁ (fun _ h => h) ?_
    rintro M hM hcallees f ⟨this, hthis', rfl⟩
    obtain ⟨i, hi, hcarries⟩ := hedge.awaits _ rfl trivial
    cases hcarries
    exact Pointer.in_var (hcallees _ _ hi) ((q.program.code_wellFormed callee).this_has _ hthis').1
  · rcases (hadds.holds _).1 hab with hab | ⟨hf | ⟨this, -, hf⟩, -⟩
    · exact (h.flows a b hab).mono fun m => hadds.holds_of_holds
    · cases hf
    · cases hf
  · exact hadv.ran_of_ran
      (h.callers m' e ((hadds.holds_iff_of_isWork (f := .edge m' e) trivial).1 he))

theorem bind (h : InOrder q c (.bind e :: rest)) (hc : c.Grounded q)
    (hadv : Advances q (.bind e) c c' ts) (ht : (Task.bind e).Justified q c)
    (hok : c.bind e = (c', .ok ts)) : InOrder q c' (ts ++ rest) := by
  obtain ⟨m, he, hb⟩ := ht
  obtain ⟨-, -, -, s, lhs, hs⟩ := he.home
  rcases bind_spec hc.tidy hb hs with ⟨err, heq, -⟩ | ⟨c₁, heq, hadds, -⟩
  · cases hok.symm.trans heq
  · cases hok.symm.trans heq
    have hcode := q.program.code_wellFormed e.callee.method
    have hcaller : c'.Holds (.reach ⟨e.site.ctx, e.site.site.method⟩) :=
      hadds.holds_of_holds h.inTime.1.1
    have hcallee : c'.Holds (.reach e.callee) := hadds.holds_of_holds h.inTime.1.2
    refine h.of_adds hadds hadv (fun f hf => ?_) nofun nofun
    cases hf with
    | arg h =>
      have hparam := hcode.params_have _ (List.of_mem_zip h).2
      exact Pointer.in_var (N := c'.Reaches) hcallee hparam.1
    | result hst hr =>
      obtain ⟨hm, hlhs, -⟩ := Program.fits_of_stmt? hst
      exact Pointer.in_var (N := c'.Reaches) hcaller ((hlhs _ rfl).1.trans hm.symm)
    | receiver hk hr ht => exact Pointer.in_var (N := c'.Reaches) hcallee (hcode.this_has _ ht).1

theorem record (h : InOrder q c (.record m e :: rest)) (hcomp : Complete q c (.record m e :: rest))
    (hadv : Advances q (.record m e) c c' ts) (he : q.Derives (.edge m e))
    (hok : c.record m e = (c', .ok ts)) : InOrder q c' (ts ++ rest) := by
  obtain ⟨c₁, heq, hkeeps, -, hw, hholds⟩ := record_spec c m e
  cases hok.symm.trans heq
  have hmono : ∀ m, c.Reaches m → c'.Reaches m := fun m => hadv.holds _
  obtain ⟨hcaller, hcallee⟩ : c.Reaches m ∧ c.Reaches e.callee := h.inTime.1
  refine ⟨hkeeps.order.trans h.fifo, ?_, fun a b hab => ?_, fun m' e' he' => ?_⟩
  · refine Ordered.append (fun M hM t' ht' => ?_) fun M hM => ?_
    · simp only [List.mem_cons, List.not_mem_nil, or_false] at ht'
      rcases ht' with rfl | rfl
      · trivial
      · exact ⟨he.home.1 ▸ hM m (hmono m hcaller), hM _ (hmono _ hcallee)⟩
    · rw [hw]
      refine h.inTime.2.imp (fun M₁ M₂ _ _ hM₂ t' ht' => ht'.imp hM₂ (·.mono hM₂)) fun m' hm' => ?_
      exact hM m' (hm'.elim (hmono m') nofun)
  · have hab : c.Holds (.flow a b) := by simpa using (hholds _).1 hab
    exact (h.flows a b hab).mono hmono
  · rcases (hholds _).1 he' with he' | ⟨-, heq | heq | heq⟩
    · exact hadv.ran_of_ran (h.callers m' e' he')
    · cases heq
      exact hadv.ran_of_ran (h.ran hcomp hcaller)
    · cases heq
    · cases heq

/-- The rest of a queue is in time when the callee of the item that was taken up is reachable, also
with further items for reachable methods at its end. -/
theorem rest_inTime {i : WorkItem} {items : List WorkItem} {N : CtxMethod → Prop}
    (h : InOrder q c (.next :: rest)) (more : List WorkItem)
    (hitems : c.worklist.items = i :: items)
    (hN : ∀ m, c.Reaches m → N m) (hcallee : ∀ m e, i = .edge m e → N e.callee)
    (hmore : ∀ j ∈ more, ∀ f, j.Carries f → f.In c.Reaches) :
    Ordered (Task.InTime (items ++ more)) N rest := by
  have hinTime := h.inTime.2
  rw [hitems] at hinTime
  refine hinTime.imp (fun M M' _ hM' hMM t' ht' => ht'.imp hMM fun hq => ?_) fun m hm =>
    hN m (hm.elim id nofun)
  have htail : Queued M' items := by
    refine hq.2.mono fun m hm => ?_
    rcases hm with hm | ⟨m', e, rfl, rfl⟩
    · exact hMM m hm
    · exact hM' _ (hcallee m' e rfl)
  exact htail.append fun M₂ hM₂ _ j hj f hf =>
    (hmore j hj f hf).mono fun m hm => hM₂ m (hM' m (hN m hm))

theorem next (h : InOrder q c (.next :: rest)) (hcomp : Complete q c (.next :: rest))
    (hc : c.Grounded q) (hadv : Advances q .next c c' ts) (hok : c.next = (c', .ok ts)) :
    InOrder q c' (ts ++ rest) := by
  rcases next_spec c with ⟨-, heq⟩ | ⟨l₁, i, l₂, hitems, hfirst, hrest⟩
  · cases hok.symm.trans heq
    exact h.of_adds (adds_refl c) hadv nofun nofun nofun
  obtain rfl := hfirst h.fifo
  rw [List.nil_append] at hitems hrest
  have hfront : ∀ f, i.Carries f → f.In c.Reaches := by
    have hqueued : Queued c.Reaches c.worklist.items := h.inTime.1
    rw [hitems] at hqueued
    exact hqueued.1
  have hremain := holds_remain c l₂
  -- when no object is new, only the worklist has changed
  have hsame : c' = c.remain l₂ → Ordered (Task.InTime l₂) c.Reaches (ts ++ rest) →
      InOrder q c' (ts ++ rest) := by
    rintro rfl hinTime
    exact ⟨h.fifo, hinTime, fun a b => h.flows a b,
      fun m e he => hadv.ran_of_ran (h.callers m e he)⟩
  rcases hrest with ⟨p, os, rfl, heq⟩ | ⟨m, e, rfl, heq⟩
  · have hp : ∀ o ∈ os, p ∈ c.analysis.heap.pointers.keys := fun o ho =>
      (hc.knows _ (.inr ⟨_, by simp [hitems], .points ho⟩)).1.1
    rcases takeObjects_spec (c := c.remain l₂) hp with
      ⟨-, heq'⟩ | ⟨c₁, ts₁, heq', hkeeps, -, ⟨o, ho, -⟩, hholds, hitems', -, hts⟩
    · cases hok.symm.trans (heq.trans heq')
      exact hsame rfl (by simpa using h.rest_inTime [] hitems (fun _ => id) nofun nofun)
    · cases hok.symm.trans (heq.trans heq')
      have hmono : ∀ m, c.Reaches m → c'.Reaches m := fun m => hadv.holds _
      have hpIn : p.In c.Reaches := hfront _ (.points ho)
      refine ⟨hkeeps.order.trans h.fifo, ?_, fun a b hab => ?_, fun m e he => ?_⟩
      · rw [hitems']
        refine Ordered.append (fun M hM t' ht' => ?_) fun M hM => ?_
        · rcases hts t' ht' with ⟨e, rfl⟩ | ⟨ctx, v, rfl, rfl⟩
          · trivial
          · exact hM _ (hmono _ hpIn)
        · refine h.rest_inTime _ hitems (fun m hm => hM m (hmono m hm)) nofun ?_
          -- the objects are sent to where `p` flows
          rintro j hj f hf
          obtain ⟨b, hb, rfl⟩ := List.mem_map.1 hj
          cases hf with
          | points => exact h.flows p b (FlowGraph.hasEdge_iff.2 hb)
      · have hab : c.Holds (.flow a b) := by simpa [hremain] using (hholds _).1 hab
        exact (h.flows a b hab).mono hmono
      · have he : c.Holds (.edge m e) := by simpa [hremain] using (hholds _).1 he
        exact hadv.ran_of_ran (h.callers m e he)
  · have hm : c.Reaches m := hfront _ .edge
    rcases takeEdge_spec (c.remain l₂) m e with ⟨hold, heq'⟩ | ⟨-, heq'⟩
    · cases hok.symm.trans (heq.trans heq')
      have he : c.Holds (.edge m e) :=
        holds_edge_of_hasEdge hc (hc.derives _ (.inr ⟨_, by simp [hitems], .edge⟩)) hold
      refine hsame rfl ?_
      have hcallee := (hcomp.bound m e he).1
      simpa using h.rest_inTime [] hitems (fun _ => id)
        (by rintro m' e' ⟨⟩; exact hcallee) nofun
    · cases hok.symm.trans (heq.trans heq')
      refine hsame rfl ⟨trivial, ⟨.inl hm, .inr rfl⟩, ?_⟩
      simpa using h.rest_inTime []
        (N := fun m' => (c.Reaches m' ∨ Task.reach e.callee = .reach m') ∨
          Task.record m e = .reach m') hitems (fun m' hm' => .inl (.inl hm'))
        (by rintro m' e' ⟨⟩; exact .inl (.inr rfl)) nofun

/-- The entries are in time one after the other. -/
theorem inTime_entries {items : List WorkItem} {N : CtxMethod → Prop} (l : List MethodId)
    (h : ∀ M : CtxMethod → Prop, (∀ m, N m → M m) → Ordered (Task.InTime items) M rest) :
    Ordered (Task.InTime items) N
      ((l.flatMap fun m => [.reach ⟨[], m⟩, .enter ⟨[], m⟩]) ++ rest) := by
  induction l generalizing N with
  | nil => exact h N fun _ => id
  | cons m l ih =>
    exact ⟨trivial, .inr rfl, ih fun M hM => h M fun m hm => hM m (.inl (.inl hm))⟩

theorem begin (h : InOrder q c (.begin :: rest)) (hadv : Advances q .begin c c' ts)
    (hok : c.begin = (c', .ok ts)) : InOrder q c' (ts ++ rest) := by
  unfold Core.begin at hok
  split at hok
  · cases hok
    exact h.of_adds (adds_refl c) hadv nofun nofun nofun
  · cases hok
    refine ⟨h.fifo, ?_, fun a b => h.flows a b, fun m e he => hadv.ran_of_ran (h.callers m e he)⟩
    refine ⟨trivial, inTime_entries _ fun M hM => ?_⟩
    refine h.inTime.2.imp (fun M₁ M₂ _ _ hM₂ t' ht' => ht'.imp hM₂ (·.mono hM₂)) fun m hm => ?_
    exact hM m (.inl (hm.elim (fun hm => hm) nofun))

/-- Every task keeps the order. -/
theorem perform (h : InOrder q c (t :: rest)) (hcomp : Complete q c (t :: rest))
    (hc : c.Grounded q) (ht : t.Justified q c) (hok : c.perform t = (c', .ok ts)) :
    InOrder q c' (ts ++ rest) := by
  have hadv := perform_advances hc ht hok
  cases t with
  | begin => exact h.begin hadv hok
  | reach m => exact h.reach hc.tidy hadv hok
  | enter m =>
    cases hok
    refine h.of_adds (adds_addEntry c m) hadv ?_ nofun nofun
    rintro f rfl
    trivial
  | exec m s injected =>
    obtain rfl : injected = false := ht.1
    exact h.exec hc hadv ht hok
  | react m s os => exact h.react hc hadv ht hok
  | dispatch m site o => exact h.dispatch hc hadv ht hok
  | wake ctx v delta =>
    cases (wake_eq hc.tidy ht.2.1 ctx delta).symm.trans hok
    refine h.of_adds (adds_refl c) hadv nofun nofun fun M hM t' ht' => ?_
    obtain ⟨s, -, rfl⟩ := List.mem_map.1 ht'
    exact hM _ h.inTime.1
  | next => exact h.next hcomp hc hadv hok
  | drain =>
    obtain ⟨ts', heq, hts⟩ := drain_spec c
    cases heq.symm.trans hok
    refine h.of_adds (adds_refl c) hadv nofun nofun fun M hM t' ht' => ?_
    have hqueued : Queued M c.worklist.items := Queued.mono h.inTime.1 hM
    rcases hts t' ht' with rfl | rfl <;> exact hqueued
  | record m e => exact h.record hcomp hadv ht.1 hok
  | bind e => exact h.bind hc hadv ht hok
  | announce e =>
    cases hok
    exact h.of_adds (adds_refl c) hadv nofun nofun nofun
  | statistics =>
    cases hok
    exact h.of_adds (adds_statistics c) hadv nofun nofun nofun

end InOrder

end Core

end PointsTo
