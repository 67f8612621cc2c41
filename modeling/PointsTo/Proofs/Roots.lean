import PointsTo.Proofs.CallGraph.Reachability
import PointsTo.Proofs.OrderIndependence

/-!
# No orphans

Every method of the call graph is there for a reason: a path of calls leads to it from an entry.
While a run is underway some of these calls may not be recorded yet, since an object can arrive at a
method before the call edge that leads there is taken up, and the caller of an edge gets into the
call graph with it. So a path may use edges that are promised.

* `Core.FromEntry`: a path of promised call edges leads from an entry to a method;
* `Core.Rooted`: whatever is known or to be done is about such methods;
* `Core.Rooted.perform`: every task keeps it so;
* `Solver.solve_rooted`: at the end the edges are recorded, and without contexts the methods that
  calls lead to from the entries are exactly the reachable ones.
-/

namespace PointsTo

/-- The fact is about methods of `N`. -/
def Fact.About (N : CtxMethod → Prop) (f : Fact) : Prop := f.In N ∧ ∀ m, f = .reach m → N m

/-- The task is about methods of `N`. -/
def Task.About (N : CtxMethod → Prop) (t : Task) : Prop := t.InTime [] N ∧ ∀ m, t = .reach m → N m

theorem Fact.About.mono {N N' : CtxMethod → Prop} {f : Fact} (h : f.About N)
    (hN : ∀ m, N m → N' m) : f.About N' :=
  ⟨h.1.mono hN, fun m hm => hN m (h.2 m hm)⟩

theorem Task.About.mono {N N' : CtxMethod → Prop} {t : Task} (h : t.About N)
    (hN : ∀ m, N m → N' m) : t.About N' :=
  ⟨h.1.imp hN fun _ => trivial, fun m hm => hN m (h.2 m hm)⟩

theorem Fact.about_points {N : CtxMethod → Prop} {m : CtxMethod} {v : VarId} {o : Obj} (hm : N m)
    (hv : v.method = m.method) : (Fact.points (.var m.ctx v) o).About N :=
  ⟨Pointer.in_var hm hv, nofun⟩

theorem Fact.about_flow {N : CtxMethod → Prop} {m : CtxMethod} {a : Pointer} {v : VarId} (hm : N m)
    (hv : v.method = m.method) : (Fact.flow a (.var m.ctx v)).About N :=
  ⟨Pointer.in_var hm hv, nofun⟩

theorem Task.about_announce {N : CtxMethod → Prop} (e : Event) : (Task.announce e).About N :=
  ⟨trivial, nofun⟩

namespace Core

variable {q : Problem} {c c' : Core} {t : Task} {ts rest tasks tasks' : List Task} {m : CtxMethod}
  {s : StmtId} {o : Obj} {e : CtxEdge} {F : Fact → Prop}

/-- A path of promised call edges leads from an entry to `m`. -/
def FromEntry (q : Problem) (c : Core) (tasks : List Task) (m : CtxMethod) : Prop :=
  ∃ x ∈ q.entries, Relation.ReflTransGen
    (fun m m' => ∃ e, c.Promises tasks (.edge m e) ∧ e.callee = m') ⟨[], x⟩ m

theorem FromEntry.mono (h : c.FromEntry q tasks m)
    (hedges : ∀ m e, c.Promises tasks (.edge m e) → c'.Promises tasks' (.edge m e)) :
    c'.FromEntry q tasks' m := by
  obtain ⟨x, hx, hpath⟩ := h
  refine ⟨x, hx, Relation.ReflTransGen.mono ?_ _ _ hpath⟩
  rintro m m' ⟨e, he, rfl⟩
  exact ⟨e, hedges m e he, rfl⟩

theorem FromEntry.callee (h : c.FromEntry q tasks m) (he : c.Promises tasks (.edge m e)) :
    c.FromEntry q tasks e.callee := by
  obtain ⟨x, hx, hpath⟩ := h
  exact ⟨x, hx, hpath.tail ⟨e, he, rfl⟩⟩

/-- Everything that is due or to be done is about methods to which a path of calls leads. -/
structure Rooted (q : Problem) (c : Core) (tasks : List Task) : Prop where
  facts : ∀ f, c.Due f → f.About (c.FromEntry q tasks)
  tasks : ∀ t ∈ tasks, t.About (c.FromEntry q tasks)

namespace Rooted

/-- What was rooted stays so; what is new has to be. -/
theorem step (h : Rooted q c (t :: rest)) (hadv : Advances q t c c' ts)
    (hfacts : ∀ f, c'.Due f → c.Due f ∨ f.About (c'.FromEntry q (ts ++ rest)))
    (hts : ∀ t' ∈ ts, t'.About (c'.FromEntry q (ts ++ rest))) : Rooted q c' (ts ++ rest) := by
  have hmono : ∀ m, c.FromEntry q (t :: rest) m → c'.FromEntry q (ts ++ rest) m :=
    fun m hm => hm.mono fun _ _ => hadv.promises
  constructor
  · intro f hf
    rcases hfacts f hf with hf | hf
    · exact (h.facts f hf).mono hmono
    · exact hf
  · intro t' ht'
    rcases List.mem_append.1 ht' with ht' | ht'
    · exact hts t' ht'
    · exact (h.tasks t' (List.mem_cons_of_mem t ht')).mono hmono

/-- A task that adds facts about rooted methods. -/
theorem of_adds (h : Rooted q c (t :: rest)) (hadv : Advances q t c c' ts) (hadds : Adds F c c')
    (hF : ∀ f, F f → f.About (c'.FromEntry q (ts ++ rest)))
    (hts : ∀ t' ∈ ts, t'.About (c'.FromEntry q (ts ++ rest))) : Rooted q c' (ts ++ rest) := by
  refine h.step hadv (fun f hf => ?_) hts
  rcases hadds.due_cases hf with hf | hf | ⟨a, b, o, rfl, hab, -⟩
  · exact .inl hf
  · exact .inr (hF f hf)
  · exact .inr ⟨(hF _ hab).1, nofun⟩

/-- The method of the task that is done next is rooted, also afterwards. -/
theorem fromEntry (h : Rooted q c (t :: rest)) (hadv : Advances q t c c' ts)
    (hm : ∀ N : CtxMethod → Prop, t.About N → N m) : c'.FromEntry q (ts ++ rest) m :=
  (hm _ (h.tasks t List.mem_cons_self)).mono fun _ _ => hadv.promises

theorem reach (h : Rooted q c (.reach m :: rest)) (hc : c.Tidy q)
    (hadv : Advances q (.reach m) c c' ts) (hok : c.reach m = (c', .ok ts)) :
    Rooted q c' (ts ++ rest) := by
  have hm : c'.FromEntry q (ts ++ rest) m := h.fromEntry hadv fun N hN => hN.2 m rfl
  by_cases hmem : m ∈ c.analysis.calls.methods
  · cases hok.symm.trans (reach_of_mem hmem)
    exact h.of_adds hadv (adds_refl c) nofun nofun
  · rcases reach_spec hc hmem with ⟨e, -, heq⟩ | ⟨c₁, ts₁, heq, hadds, -, -, hts⟩
    · cases hok.symm.trans heq
    · cases hok.symm.trans heq
      refine h.of_adds hadv hadds ?_ fun t' ht' => ?_
      · rintro f rfl
        exact ⟨trivial, by rintro m' ⟨⟩; exact hm⟩
      · rcases hts t' ht' with ⟨e, rfl⟩ | ⟨s, -, rfl⟩
        · exact Task.about_announce e
        · exact ⟨hm, nofun⟩

theorem enter (h : Rooted q c (.enter m :: rest))
    (hadv : Advances q (.enter m) c (c.modifyCalls (·.addEntry m)) []) :
    Rooted q (c.modifyCalls (·.addEntry m)) ([] ++ rest) := by
  refine h.of_adds hadv (adds_addEntry c m) ?_ nofun
  rintro f rfl
  refine ⟨trivial, ?_⟩
  rintro m' ⟨⟩
  exact h.fromEntry hadv fun N hN => hN.1

theorem exec (h : Rooted q c (.exec m s false :: rest)) (hc : c.Grounded q)
    (ht : (Task.exec m s false).Justified q c) (hadv : Advances q (.exec m s false) c c' ts)
    (hok : c.exec m s false = (c', .ok ts)) : Rooted q c' (ts ++ rest) := by
  obtain ⟨-, -, hb, hs⟩ := ht
  obtain ⟨ts', hts', hadds, -, hcalls⟩ := exec_spec hc.tidy hs hb
  rw [hok] at hts' hadds
  cases hts'
  have hm : c'.FromEntry q (ts ++ rest) m := h.fromEntry hadv fun N hN => hN.1
  refine h.of_adds hadv hadds (fun f hf => ?_) fun t' ht' => ?_
  · cases hf with
    | alloc hst => exact Fact.about_points hm (Problem.fits_of_mem_body hs hst).1
    | assign hst => exact Fact.about_flow hm (Problem.fits_of_mem_body hs hst).1.1
    | site => exact ⟨trivial, nofun⟩
    | call => exact ⟨hm, nofun⟩
  · rcases hcalls t' ht' with ⟨e, rfl⟩ | ⟨v, os, rfl, -⟩
    · exact Task.about_announce e
    · exact ⟨hm, nofun⟩

theorem react {os : PointsToSet} (h : Rooted q c (.react m s os :: rest)) (hc : c.Grounded q)
    (ht : (Task.react m s os).Justified q c) (hadv : Advances q (.react m s os) c c' ts)
    (hok : c.react m s os = (c', .ok ts)) : Rooted q c' (ts ++ rest) := by
  obtain ⟨-, hb, hs, -⟩ := ht
  have hm : c'.FromEntry q (ts ++ rest) m := h.fromEntry hadv fun N hN => hN.1
  rcases react_spec hc.tidy hs hb os with ⟨hts, hadds, -, hno⟩ | ⟨id, lhs, -, -, heq⟩
  · rw [hok] at hts hadds
    cases hts
    refine h.of_adds hadv hadds ?_ nofun
    rintro f ⟨o, -, hf⟩
    cases hf with
    | load hst => exact Fact.about_flow hm (Problem.fits_of_mem_body hs hst).1.1
    | store => exact ⟨trivial, nofun⟩
    | call hst hk => exact absurd hk (hno _ _ hst)
  · cases hok.symm.trans heq
    refine h.of_adds hadv (adds_refl c) nofun fun t' ht' => ?_
    obtain ⟨o, -, rfl⟩ := List.mem_map.1 ht'
    exact ⟨hm, nofun⟩

/-- The object is on its way to a method to which the edge on the worklist leads. -/
theorem dispatch {site : CtxSite} (h : Rooted q c (.dispatch m site o :: rest))
    (hc : c.Grounded q) (ht : (Task.dispatch m site o).Justified q c)
    (hadv : Advances q (.dispatch m site o) c c' ts)
    (hok : c.dispatch m site o = (c', .ok ts)) : Rooted q c' (ts ++ rest) := by
  have hm : c'.FromEntry q (ts ++ rest) m := h.fromEntry hadv fun N hN => hN.1
  obtain ⟨ctx, id⟩ := site
  obtain ⟨-, hb, rfl, s, lhs, hs, -, ha, ho⟩ := ht
  have hid := ha.isBuilt_site hs hb
  rcases dispatch_spec (m := m) hc.tidy hid ho with
    ⟨-, -, e, he⟩ | ⟨callee, c₁, -, hedge, ⟨e, heq, -⟩ | ⟨c₂, heq, hthis, -⟩⟩
  · rw [hok] at he
    cases he
  · cases hok.symm.trans heq
  · cases hok.symm.trans heq
    have hadds := hedge.trans hthis
    have hcallee := hm.callee (.inl (hadds.due (.inl rfl)))
    refine h.of_adds hadv hadds ?_ nofun
    rintro f (rfl | ⟨this, hthis', rfl⟩)
    · exact ⟨hm, nofun⟩
    · exact Fact.about_points hcallee ((q.program.code_wellFormed callee).this_has _ hthis').1

theorem bind (h : Rooted q c (.bind e :: rest)) (hc : c.Grounded q)
    (ht : (Task.bind e).Justified q c) (hadv : Advances q (.bind e) c c' ts)
    (hok : c.bind e = (c', .ok ts)) : Rooted q c' (ts ++ rest) := by
  have hcaller : c'.FromEntry q (ts ++ rest) ⟨e.site.ctx, e.site.site.method⟩ :=
    h.fromEntry hadv fun N hN => hN.1.1
  have hcallee : c'.FromEntry q (ts ++ rest) e.callee := h.fromEntry hadv fun N hN => hN.1.2
  obtain ⟨m, he, hb⟩ := ht
  obtain ⟨-, -, -, s, lhs, hs⟩ := he.home
  rcases bind_spec hc.tidy hb hs with ⟨err, heq, -⟩ | ⟨c₁, heq, hadds, -⟩
  · cases hok.symm.trans heq
  · cases hok.symm.trans heq
    have hcode := q.program.code_wellFormed e.callee.method
    refine h.of_adds hadv hadds (fun f hf => ?_) nofun
    cases hf with
    | arg h => exact Fact.about_flow hcallee (hcode.params_have _ (List.of_mem_zip h).2).1
    | result hst hr =>
      obtain ⟨hm, hlhs, -⟩ := Program.fits_of_stmt? hst
      exact Fact.about_flow hcaller ((hlhs _ rfl).1.trans hm.symm)
    | receiver hk hr ht => exact Fact.about_flow hcallee (hcode.this_has _ ht).1

theorem record (h : Rooted q c (.record m e :: rest)) (he : q.Derives (.edge m e))
    (hadv : Advances q (.record m e) c c' ts) (hok : c.record m e = (c', .ok ts)) :
    Rooted q c' (ts ++ rest) := by
  have hm : c'.FromEntry q (ts ++ rest) m := h.fromEntry hadv fun N hN => hN.1.1
  have hcallee : c'.FromEntry q (ts ++ rest) e.callee := h.fromEntry hadv fun N hN => hN.1.2
  obtain ⟨c₁, heq, -, -, hw, hholds⟩ := record_spec c m e
  cases hok.symm.trans heq
  refine h.step hadv (fun f hf => ?_) fun t' ht' => ?_
  · rcases hf with hf | hf
    · rcases (hholds f).1 hf with hf | ⟨-, rfl | rfl | rfl⟩
      · exact .inl (.inl hf)
      · exact .inr ⟨hm, nofun⟩
      · exact .inr ⟨trivial, by rintro m' ⟨⟩; exact hm⟩
      · exact .inr ⟨trivial, by rintro m' ⟨⟩; exact hcallee⟩
    · exact .inl (.inr ((awaits_congr hw).1 hf))
  · simp only [List.mem_cons, List.not_mem_nil, or_false] at ht'
    rcases ht' with rfl | rfl
    · exact Task.about_announce _
    · exact ⟨⟨he.home.1 ▸ hm, hcallee⟩, nofun⟩

theorem next (h : Rooted q c (.next :: rest)) (hc : c.Grounded q)
    (hadv : Advances q .next c c' ts) (hok : c.next = (c', .ok ts)) :
    Rooted q c' (ts ++ rest) := by
  have hmono : ∀ m, c.FromEntry q (.next :: rest) m → c'.FromEntry q (ts ++ rest) m :=
    fun m hm => hm.mono fun _ _ => hadv.promises
  rcases next_spec c with ⟨-, heq⟩ | ⟨l₁, i, l₂, hitems, -, hrest⟩
  · cases hok.symm.trans heq
    exact h.of_adds hadv (adds_refl c) nofun nofun
  have hcarried : ∀ f, i.Carries f → c.Due f := fun f hf => .inr ⟨i, by simp [hitems], hf⟩
  have hremain : ∀ f, (c.remain (l₁ ++ l₂)).Due f → c.Due f := by
    rintro f (hf | ⟨j, hj, hf⟩)
    · exact .inl ((holds_remain c _ f).1 hf)
    · refine .inr ⟨j, ?_, hf⟩
      rw [hitems]
      rcases List.mem_append.1 hj with hj | hj
      · exact List.mem_append_left _ hj
      · exact List.mem_append_right _ (List.mem_cons_of_mem i hj)
  rcases hrest with ⟨p, os, rfl, heq⟩ | ⟨m, e, rfl, heq⟩
  · have hp : ∀ o ∈ os, p ∈ c.analysis.heap.pointers.keys := fun o ho =>
      (hc.knows _ (hcarried _ (.points ho))).1.1
    rcases takeObjects_spec (c := c.remain (l₁ ++ l₂)) hp with
      ⟨-, heq'⟩ | ⟨c₁, ts₁, heq', -, -, ⟨o, ho, -⟩, hholds, hitems', -, hts⟩
    · cases hok.symm.trans (heq.trans heq')
      exact h.step hadv (fun f hf => .inl (hremain f hf)) nofun
    · cases hok.symm.trans (heq.trans heq')
      refine h.step hadv (fun f hf => ?_) fun t' ht' => ?_
      · rcases hf with hf | ⟨j, hj, hf⟩
        · rcases (hholds f).1 hf with hf | ⟨o', ho', rfl⟩
          · exact .inl (hremain f (.inl hf))
          · exact .inl (hcarried _ (.points ho'))
        · rw [hitems'] at hj
          rcases List.mem_append.1 hj with hj | hj
          · exact .inl (hremain f (.inr ⟨j, hj, hf⟩))
          · -- the objects are sent to where `p` flows
            obtain ⟨b, hb, rfl⟩ := List.mem_map.1 hj
            have hflow : c.Holds (.flow p b) := FlowGraph.hasEdge_iff.2 hb
            cases hf with
            | points => exact .inr ⟨((h.facts _ (.inl hflow)).mono hmono).1, nofun⟩
      · rcases hts t' ht' with ⟨e, rfl⟩ | ⟨ctx, v, rfl, rfl⟩
        · exact Task.about_announce e
        · exact ⟨((h.facts _ (hcarried _ (.points ho))).mono hmono).1, nofun⟩
  · have hm : c'.FromEntry q (ts ++ rest) m := hmono m (h.facts _ (hcarried _ .edge)).1
    rcases takeEdge_spec (c.remain (l₁ ++ l₂)) m e with ⟨-, heq'⟩ | ⟨-, heq'⟩
    · cases hok.symm.trans (heq.trans heq')
      exact h.step hadv (fun f hf => .inl (hremain f hf)) nofun
    · cases hok.symm.trans (heq.trans heq')
      have hcallee := hm.callee (e := e) (.inr ⟨m, e, by simp, rfl⟩)
      refine h.step hadv (fun f hf => .inl (hremain f hf)) fun t' ht' => ?_
      simp only [List.mem_cons, List.not_mem_nil, or_false] at ht'
      rcases ht' with rfl | rfl
      · exact ⟨trivial, by rintro m' ⟨⟩; exact hcallee⟩
      · exact ⟨⟨hm, hcallee⟩, nofun⟩

theorem begin (h : Rooted q c (.begin :: rest)) (hc : c.Tidy q)
    (hadv : Advances q .begin c c' ts) (hok : c.begin = (c', .ok ts)) :
    Rooted q c' (ts ++ rest) := by
  unfold Core.begin at hok
  split at hok
  · cases hok
    exact h.of_adds hadv (adds_refl c) nofun nofun
  · cases hok
    refine h.step hadv (fun f hf => .inl ?_) fun t' ht' => ?_
    · cases f <;> exact hf
    · rcases List.mem_cons.1 ht' with rfl | ht'
      · exact Task.about_announce _
      · obtain ⟨m, hm, ht'⟩ := List.mem_flatMap.1 ht'
        rw [hc.entries_eq] at hm
        simp only [List.mem_cons, List.not_mem_nil, or_false] at ht'
        rcases ht' with rfl | rfl
        · exact ⟨trivial, by rintro m' ⟨⟩; exact ⟨m, hm, .refl⟩⟩
        · exact ⟨⟨m, hm, .refl⟩, nofun⟩

/-- Every task keeps everything rooted. -/
theorem perform (h : Rooted q c (t :: rest)) (hc : c.Grounded q) (ht : t.Justified q c)
    (hok : c.perform t = (c', .ok ts)) : Rooted q c' (ts ++ rest) := by
  have hadv := perform_advances hc ht hok
  cases t with
  | begin => exact h.begin hc.tidy hadv hok
  | reach m => exact h.reach hc.tidy hadv hok
  | enter m =>
    cases hok
    exact h.enter hadv
  | exec m s injected =>
    obtain rfl : injected = false := ht.1
    exact h.exec hc ht hadv hok
  | react m s os => exact h.react hc ht hadv hok
  | dispatch m site o => exact h.dispatch hc ht hadv hok
  | wake ctx v delta =>
    have hm : c'.FromEntry q (ts ++ rest) ⟨ctx, v.method⟩ := h.fromEntry hadv fun N hN => hN.1
    cases (wake_eq hc.tidy ht.2.1 ctx delta).symm.trans hok
    refine h.of_adds hadv (adds_refl c) nofun fun t' ht' => ?_
    obtain ⟨s, -, rfl⟩ := List.mem_map.1 ht'
    exact ⟨hm, nofun⟩
  | next => exact h.next hc hadv hok
  | drain =>
    obtain ⟨ts', heq, hts⟩ := drain_spec c
    cases heq.symm.trans hok
    refine h.of_adds hadv (adds_refl c) nofun fun t' ht' => ?_
    rcases hts t' ht' with rfl | rfl <;> exact ⟨trivial, nofun⟩
  | record m e => exact h.record ht.1 hadv hok
  | bind e => exact h.bind hc ht hadv hok
  | announce e =>
    cases hok
    exact h.of_adds hadv (adds_refl c) nofun nofun
  | statistics =>
    cases hok
    exact h.of_adds hadv (adds_statistics c) nofun nofun

end Rooted

/-- When nothing is left to be done, a path of recorded edges leads to every method. -/
theorem Rooted.path (h : Rooted q c []) (hidle : c.worklist.items = [])
    (hm : m ∈ c.analysis.calls.methods) :
    ∃ x ∈ q.entries, Relation.ReflTransGen c.analysis.calls.Calls ⟨[], x⟩ m := by
  obtain ⟨x, hx, hpath⟩ := (h.facts (.reach m) (.inl hm)).2 m rfl
  refine ⟨x, hx, Relation.ReflTransGen.mono ?_ _ _ hpath⟩
  rintro m m' ⟨e, he, rfl⟩
  exact ⟨e, he.holds hidle, rfl⟩

end Core

namespace Analysis

variable {a : Analysis} {x y : CtxMethod}

/-- A path of calls is one when the contexts are left out. -/
theorem path_methodGraph (h : a.Located) (hpath : Relation.ReflTransGen a.calls.Calls x y) :
    Relation.ReflTransGen a.methodGraph.Calls x.method y.method := by
  refine hpath.lift CtxMethod.method ?_
  rintro m _ ⟨e, he, rfl⟩
  exact ⟨plainEdge e, (mem_calls_methodGraph h).2 ⟨(m, e), he, rfl, rfl⟩, rfl⟩

/-- The call graph has no orphans: paths of calls lead from the entries of `q` to its methods, the
caller of an edge is the method that its call site belongs to, and without contexts the calls lead
from the entries exactly to the reachable methods. -/
structure Rooted (q : Problem) (a : Analysis) : Prop where
  entries : a.calls.entries = q.entries.map (CtxMethod.mk [])
  path : ∀ m ∈ a.calls.methods, ∃ x ∈ a.calls.entries, Relation.ReflTransGen a.calls.Calls x m
  caller : ∀ m e, (m, e) ∈ a.calls.calls → m = ⟨e.site.ctx, e.site.site.method⟩ ∧
    ∃ s ∈ (a.elements.code m.method).body, ∃ lhs,
      (a.elements.stmt? s).map PlacedStmt.stmt = some (.call e.site.site lhs)
  reachable : ∀ m, m ∈ a.reachableMethods ↔
    ∃ x ∈ a.methodGraph.entries, m ∈ a.methodGraph.reachableFrom x

end Analysis

namespace Solver

variable {q : Problem} {s : Solver .idle} {order : WorklistOrder} {fuel : Nat}

theorem rooted_of_solve (h : (q.solver order).solve fuel = (s, .done ())) :
    s.core.Rooted q [] := by
  have hstart : (q.solver order).core.Rooted q agenda := by
    refine ⟨fun f hf => absurd hf (q.not_due_solver order f), fun t ht => ?_⟩
    simp only [agenda, List.mem_cons, List.not_mem_nil, or_false] at ht
    rcases ht with rfl | rfl | rfl | rfl | rfl <;> exact ⟨trivial, by rintro m ⟨⟩⟩
  have hinv := settle_invariant (s := q.solver order) fuel
    (I := fun c ts => c.Underway q ts ∧ c.Rooted q ts) (E := fun _ => True) ?_
    (fun _ _ _ _ _ _ => trivial) ⟨q.underway_solver order, hstart⟩
  · rw [show (q.solver order).settle fuel agenda = (s, .done ()) from h] at hinv
    exact hinv.2
  · rintro c t rest ts ⟨hc, hrooted⟩ hok
    have hok : c.perform t = ((c.perform t).1, .ok ts) := Prod.ext rfl hok
    exact ⟨hc.perform hok,
      hrooted.perform hc.grounded (hc.justified t List.mem_cons_self) hok⟩

/-- **No orphans.** After every run that ends without error, with either order of the worklist, each
method of the call graph is at the end of a path of recorded calls from an entry. -/
theorem solve_rooted (h : (q.solver order).solve fuel = (s, .done ())) :
    s.core.analysis.Rooted q := by
  have hend := solve_underway h
  have hlocated := hend.grounded.located
  have hentries := entries_of_solve h
  have hpath := fun m hm => (rooted_of_solve h).path hend.idle (m := m) hm
  refine ⟨hentries, fun m hm => ?_, fun m e he => ?_, fun m => ?_⟩
  · obtain ⟨x, hx, hpath⟩ := hpath m hm
    refine ⟨⟨[], x⟩, ?_, hpath⟩
    rw [hentries]
    exact List.mem_map_of_mem hx
  · have hknows : s.core.IsBuilt e.site.site.method := hend.grounded.knows (.edge m e) (.inl he)
    obtain ⟨hm, -, -, st, lhs, hst⟩ := (hend.grounded.derives (.edge m e) (.inl he)).home
    have hmethod : e.site.site.method = st.method := (Program.site_of_call hst).1
    have hbody : st ∈ (q.program.code m.method).body := by
      rw [hm]
      exact hmethod ▸ Program.mem_body_of_stmt? hst
    refine ⟨hm, st, ?_, lhs, ?_⟩
    · have hcode := hend.grounded.tidy.code_eq hknows
      rw [show m.method = e.site.site.method by rw [hm]] at hbody ⊢
      exact hcode ▸ hbody
    · exact (hend.grounded.tidy.stmt?_eq (hmethod ▸ hknows)).trans hst
  · have hconsistent := s.core.analysis.consistent_methodGraph
    rw [Analysis.mem_reachableMethods, Analysis.entries_methodGraph, hentries]
    constructor
    · rintro ⟨m, hm, rfl⟩
      obtain ⟨x, hx, hpath⟩ := hpath m hm
      refine ⟨x, by simpa using hx, (CallGraph.mem_reachableFrom hconsistent).2 ⟨?_, ?_⟩⟩
      · refine (Analysis.mem_methods_methodGraph hlocated).2 ⟨⟨[], x⟩, ?_, rfl⟩
        refine hlocated.consistent.entered _ ?_
        rw [hentries]
        exact List.mem_map_of_mem hx
      · exact Analysis.path_methodGraph hlocated hpath
    · rintro ⟨x, -, hm⟩
      obtain ⟨hx, hpath⟩ := (CallGraph.mem_reachableFrom hconsistent).1 hm
      rw [← Analysis.mem_methods_methodGraph hlocated]
      -- callees are methods of the graph
      induction hpath with
      | refl => exact hx
      | tail _ hcall =>
        obtain ⟨e, he, rfl⟩ := hcall
        exact (hconsistent.joined _ he).2

/-- With a stack as worklist, the call from `visit` to `leave` is recorded before the one that leads
to `visit`. -/
theorem solve_rooted_visitor :
    ∃ s, (Problem.visitor.solver .lifo).solve 100 = (s, .done ()) ∧
      s.core.analysis.Rooted .visitor := by
  have hdone : ((Problem.visitor.solver .lifo).solve 100).2 = .done () := by decide +kernel
  generalize hr : (Problem.visitor.solver .lifo).solve 100 = r at hdone
  obtain ⟨s, v⟩ := r
  obtain rfl : v = .done () := hdone
  exact ⟨s, rfl, solve_rooted hr⟩

end Solver

end PointsTo
