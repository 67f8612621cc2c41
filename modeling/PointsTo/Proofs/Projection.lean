import PointsTo.Proofs.CallGraph.Reachability
import PointsTo.Proofs.Growth
import PointsTo.Proofs.OrderIndependence
import PointsTo.Proofs.Propagation

/-!
# The call graph without contexts is exact

In every state of a run without plugins, also while it is underway and after an error, the call
graph over plain methods is the one over methods in contexts with the contexts left out.

* `Analysis.Projects`: it has the same methods, entries, call sites and edges, each once;
* `Core.Recorded`: call sites are recorded for reachable methods only;
* `Solver.listed_after`: the entries that are listed are the first ones of the problem, in order;
* `Solver.projects_after`: this is so after any calls of a solver.
-/

namespace PointsTo

namespace Analysis

/-- The call graph over plain methods is the one over methods in contexts, with the contexts left
out. -/
structure Projects (a : Analysis) : Prop where
  methods : a.methodGraph.methods.toList.Perm a.reachableMethods
  methods_nodup : a.reachableMethods.Nodup
  mem_methods : ∀ m, m ∈ a.reachableMethods ↔ ∃ ctx, ⟨ctx, m⟩ ∈ a.calls.methods
  entries : a.methodGraph.entries = a.calls.entries.map CtxMethod.method
  hasEdge : ∀ s m, a.methodGraph.hasEdge s m = true ↔
    ∃ ctx ctx', a.calls.hasEdge ⟨ctx, s⟩ ⟨ctx', m⟩ = true
  /-- The caller is the method that the call site belongs to, and the kind is that of the call. -/
  calls : ∀ m e, (m, e) ∈ a.methodGraph.calls ↔
    m = e.site.method ∧ ∃ ctx ctx', ⟨e.kind, ⟨ctx, e.site⟩, ⟨ctx', e.callee⟩⟩ ∈ a.calls.edges
  calls_nodup : (a.methodGraph.calls.map fun x => (x.2.site, x.2.callee)).Nodup
  sites : ∀ m s, s ∈ a.methodGraph.sitesIn m ↔ ∃ ctx ctx', ⟨ctx', s⟩ ∈ a.calls.sitesIn ⟨ctx, m⟩
  sites_nodup : ∀ m, (a.methodGraph.sitesIn m).Nodup
  /-- No call site belongs to two methods. -/
  sites_home : ∀ m, ∀ s ∈ a.methodGraph.sitesIn m, s.method = m

variable {a : Analysis}

/-- The edges of a call graph in which every call site is at home. -/
theorem Located.mem_calls_iff (h : a.Located) {m : MethodId} {e : CallEdge SiteId MethodId} :
    (m, e) ∈ a.methodGraph.calls ↔
      m = e.site.method ∧
        ∃ ctx ctx', ⟨e.kind, ⟨ctx, e.site⟩, ⟨ctx', e.callee⟩⟩ ∈ a.calls.edges := by
  rw [mem_calls_methodGraph h]
  constructor
  · rintro ⟨⟨x, e⟩, hx, rfl, rfl⟩
    rw [h.edge_home x e hx]
    exact ⟨rfl, e.site.ctx, e.callee.ctx, List.mem_map_of_mem (f := Prod.snd) hx⟩
  · rintro ⟨rfl, ctx, ctx', he⟩
    obtain ⟨⟨x, e'⟩, hx, rfl⟩ := List.mem_map.1 he
    refine ⟨_, hx, ?_, rfl⟩
    rw [h.edge_home x _ hx]

theorem Located.hasEdge_iff (h : a.Located) {s : SiteId} {m : MethodId} :
    a.methodGraph.hasEdge s m = true ↔ ∃ ctx ctx', a.calls.hasEdge ⟨ctx, s⟩ ⟨ctx', m⟩ = true := by
  constructor
  · intro hs
    obtain ⟨⟨m', e⟩, he, rfl, rfl⟩ := (a.consistent_methodGraph.recorded s m).1 hs
    obtain ⟨⟨x, e'⟩, hx, -, rfl⟩ := (mem_calls_methodGraph h).1 he
    exact ⟨e'.site.ctx, e'.callee.ctx, (h.consistent.recorded _ _).2 ⟨_, hx, rfl, rfl⟩⟩
  · rintro ⟨ctx, ctx', hs⟩
    obtain ⟨x, hx, hsite, hcallee⟩ := (h.consistent.recorded _ _).1 hs
    have hedge := hasEdge_methodGraph hx
    rwa [hsite, hcallee] at hedge

/-- What has to be known of a call graph besides: call sites are recorded for its methods. -/
theorem Located.projects (h : a.Located)
    (hsites : ∀ m, ∀ s ∈ a.calls.sitesIn m, m ∈ a.calls.methods) : a.Projects where
  methods := by
    refine (List.perm_ext_iff_of_nodup a.methodGraph.methods.nodup (Search.nodup_eraseDups _)).2 ?_
    exact fun m => (mem_methods_methodGraph h).trans mem_reachableMethods.symm
  methods_nodup := Search.nodup_eraseDups _
  mem_methods m := by
    rw [mem_reachableMethods]
    constructor
    · rintro ⟨x, hx, rfl⟩
      exact ⟨x.ctx, hx⟩
    · rintro ⟨ctx, hx⟩
      exact ⟨_, hx, rfl⟩
  entries := a.entries_methodGraph
  hasEdge _ _ := h.hasEdge_iff
  calls _ _ := h.mem_calls_iff
  calls_nodup := a.consistent_methodGraph.distinct
  sites m s := by
    rw [mem_sitesIn_methodGraph h]
    constructor
    · rintro ⟨x, -, t, ht, rfl, rfl⟩
      exact ⟨x.ctx, t.ctx, ht⟩
    · rintro ⟨ctx, ctx', hs⟩
      exact ⟨_, hsites _ _ hs, _, hs, rfl, rfl⟩
  sites_nodup := a.nodup_sitesIn_methodGraph
  sites_home m s hs := by
    obtain ⟨x, -, t, ht, rfl, rfl⟩ := (mem_sitesIn_methodGraph h).1 hs
    rw [h.site_home x t ht]

end Analysis

namespace Core

variable {c : Core} {t : Task} {ts rest tasks : List Task}

/-! ### Call sites -/

/-- Call sites are recorded for reachable methods, and such methods only are run. -/
structure Recorded (c : Core) (tasks : List Task) : Prop where
  sites : ∀ m, ∀ s ∈ c.analysis.calls.sitesIn m, c.Reaches m
  runs : ∀ m s injected, .exec m s injected ∈ tasks → c.Reaches m

theorem reaches_perform (c : Core) (t : Task) {m : CtxMethod} (hm : c.Reaches m) :
    (c.perform t).1.Reaches m :=
  (c.perform_extends t).methods.subset hm

/-- A task records call sites of the method that it runs, if any. -/
theorem Recorded.sites_perform (h : c.Recorded (t :: rest)) (m : CtxMethod) :
    ∀ s ∈ (c.perform t).1.analysis.calls.sitesIn m, (c.perform t).1.Reaches m := by
  intro s hs
  rw [perform_calls] at hs
  cases t with
  | record m' e =>
    rw [callsAfter, CallGraph.sitesIn_addEdge] at hs
    exact c.reaches_perform _ (h.sites m s hs)
  | exec m' s' injected =>
    rw [callsAfter] at hs
    split at hs
    · rw [CallGraph.sitesIn_addSite] at hs
      split at hs <;> rename_i hm
      · subst hm
        exact c.reaches_perform _ (h.runs m s' injected List.mem_cons_self)
      · exact c.reaches_perform _ (h.sites m s hs)
    · exact c.reaches_perform _ (h.sites m s hs)
  | _ => exact c.reaches_perform _ (h.sites m s hs)

theorem Recorded.perform (h : c.Recorded (t :: rest)) (hok : (c.perform t).2 = .ok ts) :
    (c.perform t).1.Recorded (ts ++ rest) := by
  refine ⟨h.sites_perform, fun m s injected hx => ?_⟩
  rcases List.mem_append.1 hx with hx | hx
  · cases c.perform_callsFor t ts hok _ hx with
    | @arrival m' _ _ _ ht =>
      -- statements are run when their method becomes reachable
      have hm : m' = m := by
        rcases mem_arrival ht with ht | ⟨_, -, ht⟩ | ⟨_, -, ht⟩ | ht <;> cases ht
        rfl
      subst hm
      exact c.reaches_perform_reach m'
    | objects _ ht => simp [onward] at ht
    | edge _ ht => simp at ht
    | drain ht => simp at ht
    | record ht => simp at ht
  · exact c.reaches_perform t (h.runs m s injected (List.mem_cons_of_mem t hx))

end Core

namespace Solver

variable {q : Problem} {s : Solver .idle} {agenda : List Task} {fuel : Nat}

/-! ### Runs -/

theorem settle_recorded (h : s.core.Recorded agenda) :
    ∀ m, ∀ x ∈ (s.settle fuel agenda).1.core.analysis.calls.sitesIn m,
      (s.settle fuel agenda).1.core.Reaches m := by
  have hinv := settle_invariant fuel (I := Core.Recorded)
    (E := fun c => ∀ m, ∀ x ∈ c.analysis.calls.sitesIn m, c.Reaches m)
    (fun c t rest ts h => h.perform) (fun c t rest e h _ => h.sites_perform) h
  cases hv : (s.settle fuel agenda).2 with
  | done =>
    rw [hv] at hinv
    exact hinv.sites
  | failed e =>
    rw [hv] at hinv
    exact hinv
  | unfinished =>
    rw [hv] at hinv
    exact hinv.elim fun _ h => h.sites

/-- What the calls of a solver keep, for the problem `q`. -/
structure Tracks (q : Problem) (s : Solver .idle) : Prop where
  grounded : s.core.Grounded q
  sites : ∀ m, ∀ x ∈ s.core.analysis.calls.sitesIn m, s.core.Reaches m
  listed : s.core.ListsFrom (q.entries.map (CtxMethod.mk []))

theorem tracks_solver (q : Problem) (order : WorklistOrder) : Tracks q (q.solver order) :=
  ⟨q.grounded_solver order, fun _ _ hx => absurd hx List.not_mem_nil,
    ⟨List.nil_prefix, fun _ => rfl⟩⟩

/-- The agendas of calls ask for nothing that would need a reason. -/
theorem plain_of_mem {l : List Task} (hl : l ∈ [[.begin], [.next], Solver.agenda]) :
    (∀ q c, ∀ t ∈ l, t.Justified q c) ∧ (∀ m x injected, .exec m x injected ∉ l) ∧
      l.filterMap Task.entry? = [] ∧ (l = [.next] ∨ ∃ rest, l = .begin :: rest) := by
  simp only [List.mem_cons, List.not_mem_nil, or_false] at hl
  rcases hl with rfl | rfl | rfl
  · exact ⟨by simp [Task.Justified], by simp, rfl, .inr ⟨_, rfl⟩⟩
  · exact ⟨by simp [Task.Justified], by simp, rfl, .inl rfl⟩
  · exact ⟨by simp [Solver.agenda, Task.Justified], by simp [Solver.agenda], rfl, .inr ⟨_, rfl⟩⟩

theorem Tracks.settle (h : Tracks q s) {l : List Task}
    (hl : l ∈ [[.begin], [.next], Solver.agenda]) (fuel : Nat) :
    Tracks q (s.settle fuel l).1 := by
  obtain ⟨hjustified, hexec, hentry, hshape⟩ := plain_of_mem hl
  refine ⟨(settle_grounded h.grounded (hjustified q _)).1,
    settle_recorded ⟨h.sites, fun m x injected hx => absurd hx (hexec m x injected)⟩, ?_⟩
  cases hs : s.core.started with
  | true =>
    refine ⟨?_, fun hno => ?_⟩
    · rw [settle_listed (fun _ => hs) hentry]
      exact h.listed.isPrefix
    · rw [settle_started hs] at hno
      cases hno
  | false =>
    have hempty := h.listed.unstarted hs
    rcases hshape with rfl | ⟨rest, rfl⟩
    · have hlisted : (s.settle fuel [.next]).1.core.listed = s.core.listed :=
        settle_listed (by simp) rfl fuel
      exact ⟨hlisted ▸ h.listed.isPrefix, fun _ => hlisted.trans hempty⟩
    · have hbegin := (settle_begin hs hempty rest hentry fuel).1
      rwa [h.grounded.tidy.entries_eq] at hbegin

theorem Tracks.after (h : Tracks q s) (calls : List (Call × Nat)) : Tracks q (s.after calls) :=
  after_keeps (fun _ hl _ fuel h => h.settle hl fuel) h calls

/-- The list of entries is complete once the start does not lie ahead. -/
theorem listed_after (hs : s.core.started = true) (calls : List (Call × Nat)) :
    (s.after calls).core.listed = s.core.listed := by
  refine (after_keeps (I := fun s' => s'.core.started = true ∧ s'.core.listed = s.core.listed)
    (fun l hl s' fuel h => ?_) ⟨hs, rfl⟩ calls).2
  have hentry := (plain_of_mem hl).2.2.1
  exact ⟨settle_started h.1 fuel l, (settle_listed (fun _ => h.1) hentry fuel).trans h.2⟩

/-- When the first part of an agenda is done, what is left of the bound goes to the second one. -/
theorem exists_settle_append {s' : Solver .idle} {l₁ : List Task}
    (h : s.settle fuel l₁ = (s', .done ())) (l₂ : List Task) :
    ∃ n, s.settle fuel (l₁ ++ l₂) = s'.settle n l₂ := by
  induction fuel generalizing s l₁ with
  | zero =>
    cases l₁ with
    | nil =>
      cases h
      exact ⟨0, rfl⟩
    | cons t rest => cases h
  | succ n ih =>
    cases l₁ with
    | nil =>
      cases h
      exact ⟨n + 1, rfl⟩
    | cons t rest =>
      rw [settle] at h
      split at h <;> rename_i hp
      · obtain ⟨k, hk⟩ := ih h
        refine ⟨k, ?_⟩
        rw [List.cons_append, settle_cons_ok hp, ← List.append_assoc, hk]
      · cases h

/-- The first call of a solver lists all entries, if its start ends well. -/
theorem listed_obey (hs : s.core.started = false) (hl : s.core.listed = [])
    (hstart : (s.start fuel).2 = .done ()) (x : Call) :
    (s.obey fuel x).core.started = true ∧
      (s.obey fuel x).core.listed = s.core.entries.map (CtxMethod.mk []) := by
  obtain ⟨hstarted, hlisted⟩ := (settle_begin hs hl [] rfl fuel).2 hstart
  generalize hr : s.settle fuel [.begin] = r at hstarted hlisted
  obtain ⟨s₁, v⟩ := r
  obtain rfl : v = .done () := (congrArg Prod.snd hr).symm.trans hstart
  -- whatever follows the start leaves the list alone
  have hrest : ∀ l : List Task, l.filterMap Task.entry? = [] → ∀ n,
      (s₁.settle n l).1.core.started = true ∧
        (s₁.settle n l).1.core.listed = s.core.entries.map (CtxMethod.mk []) :=
    fun l hentry n => ⟨settle_started hstarted n l,
      (settle_listed (fun _ => hstarted) hentry n).trans hlisted⟩
  cases x with
  | start =>
    have hobey : s.obey fuel .start = s₁ := congrArg Prod.fst hr
    rw [hobey]
    exact ⟨hstarted, hlisted⟩
  | step =>
    have hnext := hrest [.next] rfl fuel
    show (s.step fuel).1.core.started = true ∧ (s.step fuel).1.core.listed = _
    rw [step, start, hr]
    simp only
    split <;> rename_i hn <;> rw [hn] at hnext <;> exact hnext
  | solve =>
    obtain ⟨n, hn⟩ := exists_settle_append hr [.drain, .announce .finish, .drain, .statistics]
    have hobey : s.obey fuel .solve =
        (s₁.settle n [.drain, .announce .finish, .drain, .statistics]).1 := congrArg Prod.fst hn
    rw [hobey]
    exact hrest _ rfl n

/-- **The call graph without contexts is exact.** After any calls of a solver without plugins, each
with its own bound on the number of tasks and whatever its verdict, the call graph over plain
methods is the one over methods in contexts without the contexts. Its entries are the first ones of
the problem, and all of them if the run has ever started well. -/
theorem projects_after (q : Problem) (order : WorklistOrder) (calls : List (Call × Nat)) :
    ((q.solver order).after calls).core.analysis.Projects ∧
      ((q.solver order).after calls).core.analysis.methodGraph.entries <+: q.entries ∧
      ∀ x fuel rest, calls = (x, fuel) :: rest → ((q.solver order).start fuel).2 = .done () →
        ((q.solver order).after calls).core.analysis.methodGraph.entries = q.entries := by
  have htracks := (tracks_solver q order).after calls
  have hprojects := htracks.grounded.located.projects htracks.sites
  have hmap : (q.entries.map (CtxMethod.mk [])).map CtxMethod.method = q.entries := by
    simp [Function.comp_def]
  refine ⟨hprojects, ?_, ?_⟩
  · rw [hprojects.entries]
    exact hmap ▸ htracks.listed.isPrefix.map CtxMethod.method
  · rintro x fuel rest rfl hstart
    obtain ⟨hstarted, hlisted⟩ := listed_obey (s := q.solver order) rfl rfl hstart x
    have hend := (listed_after hstarted rest).trans hlisted
    rw [hprojects.entries]
    exact (congrArg (List.map CtxMethod.method) hend).trans hmap

/-- The second call is cut short. -/
theorem projects_after_visitor :
    ((Problem.visitor.solver .lifo).start 50).2 = .done () ∧
      ((Problem.visitor.solver .lifo).after
        [(.step, 50), (.solve, 7)]).core.analysis.methodGraph.entries =
          Problem.visitor.entries := by
  have hstart : ((Problem.visitor.solver .lifo).start 50).2 = .done () := by decide +kernel
  exact ⟨hstart, (projects_after .visitor .lifo _).2.2 .step 50 _ rfl hstart⟩

end Solver

end PointsTo
