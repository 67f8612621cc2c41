import PointsTo.Proofs.CallGraph.Compare
import PointsTo.Proofs.Projection

/-!
# Dumps are complete

A dump writes the edges of a call graph through the call sites that are recorded for its methods,
but it announces the number of edges of the graph itself. After a run with a queue as worklist the
two agree: the call site of every edge is recorded.

* `MethodGraph.Row`: what a line of a dump shows of a call site, and `MethodGraph.sheet`: the lines
  of a dump of some methods and rows, which announces their numbers;
* `MethodGraph.Complete`: the dump of a graph is the sheet of its methods, in order, and of rows
  that show each edge once;
* `MethodGraph.complete_dump`: this is so if the call sites of all edges are listed;
* `Solver.dump_complete`: they are, after a run with a queue as worklist.
-/

namespace PointsTo

namespace Sorting

variable {α κ : Type} [LE κ] [DecidableLE κ]

theorem map_insert (k : α → κ) (a : α) (l : List α) :
    (insert (fun a b => k a ≤ k b) a l).map k = insert (fun x y => x ≤ y) (k a) (l.map k) := by
  induction l with
  | nil => rfl
  | cons b l ih =>
    by_cases hab : k a ≤ k b
    · simp [insert, hab]
    · simp [insert, hab, ih]

/-- Sorting by a key sorts the keys. -/
theorem map_sort (k : α → κ) (l : List α) :
    (sort (fun a b => k a ≤ k b) l).map k = sort (fun x y => x ≤ y) (l.map k) := by
  induction l with
  | nil => rfl
  | cons a l ih => rw [sort, map_insert, ih, List.map_cons, sort]

end Sorting

namespace MethodGraph

/-- What a line of a dump shows of a call site: its callees. -/
structure Row where
  site : SiteId
  callees : List MethodId

/-- The line for a row. -/
def Row.line (e : Elements) (r : Row) : String :=
  e.siteText r.site ++ edgeMark ++
    ("[" ++ Text.joined ", " (r.callees.map e.program.signature) ++ "]")

/-- The edges that a row shows, by their ends. -/
def Row.links (r : Row) : List (SiteId × MethodId) := r.callees.map (r.site, ·)

/-- The lines of a dump that shows the methods and the rows, and announces the number of methods and
the sum of the numbers of callees. -/
def sheet (e : Elements) (methods : List MethodId) (rows : List Row) : List String :=
  ["#reachable methods: " ++ Text.decimal methods.length,
   "---------- Reachable methods: ----------"] ++
  methods.map e.program.signature ++
  ["",
   "#call graph edges: " ++ Text.decimal (rows.map fun r => r.callees.length).sum,
   "---------- Call graph edges: ----------"] ++
  rows.map (Row.line e) ++
  ["----------------------------------------"]

/-- The dump of `g` shows the methods, in the order of their signatures, and the rows, which show
each edge on one line. -/
structure Complete (e : Elements) (g : MethodGraph) (methods : List MethodId) (rows : List Row) :
    Prop where
  text : dump e g = String.join ((sheet e methods rows).map fun l => l ++ "\n")
  increasing : (methods.map e.program.signature).Pairwise (· < ·)
  perm : methods.Perm g.methods.toList
  /-- Each call site has at most one line. -/
  sites : (rows.map Row.site).Nodup
  /-- All edges are shown, and nothing else is. -/
  edges : (rows.flatMap Row.links).Perm g.links
  /-- The callees stand on their line in the order of their signatures. -/
  callees : ∀ r ∈ rows, (r.callees.map e.program.signature).Pairwise (· < ·)
  shown : ∀ x ∈ g.links, ∃! r, r ∈ rows ∧ x ∈ r.links

variable {e : Elements} {g : MethodGraph} {s : SiteId}

/-- The callees of a call site in the order of their signatures. -/
def sortedCallees (e : Elements) (g : MethodGraph) (s : SiteId) : List MethodId :=
  Sorting.sort (fun a b => e.program.signature a ≤ e.program.signature b) (g.calleesOf s).toList

/-- The call sites with callees, in the order of the dump. -/
def rows (e : Elements) (g : MethodGraph) : List Row :=
  ((sortedSites e g).filter (isResolved g)).map fun s => ⟨s, sortedCallees e g s⟩

theorem mem_sortedCallees {m : MethodId} : m ∈ sortedCallees e g s ↔ m ∈ g.calleesOf s := by
  simp [sortedCallees]

theorem mem_rows {r : Row} :
    r ∈ rows e g ↔ r.site ∈ g.allSites ∧ isResolved g r.site = true ∧
      r.callees = sortedCallees e g r.site := by
  obtain ⟨s, ms⟩ := r
  simp only [rows, List.mem_map, List.mem_filter, mem_sortedSites, Row.mk.injEq]
  constructor
  · rintro ⟨s', ⟨hs, hres⟩, rfl, rfl⟩
    exact ⟨hs, hres, rfl⟩
  · rintro ⟨hs, hres, rfl⟩
    exact ⟨s, ⟨hs, hres⟩, rfl, rfl⟩

/-- An edge is shown in the row of its call site. -/
theorem mem_links_row {r : Row} (hr : r ∈ rows e g) {m : MethodId} :
    (s, m) ∈ r.links ↔ r.site = s ∧ m ∈ g.calleesOf s := by
  obtain ⟨-, -, hcallees⟩ := mem_rows.1 hr
  simp only [Row.links, hcallees, List.mem_map, mem_sortedCallees, Prod.mk.injEq]
  constructor
  · rintro ⟨m, hm, rfl, rfl⟩
    exact ⟨rfl, hm⟩
  · rintro ⟨rfl, hm⟩
    exact ⟨m, hm, rfl, rfl⟩

section

variable (hg : g.Consistent)
  (hsig : ∀ m ∈ g.methods, ∀ m' ∈ g.methods,
    e.program.signature m = e.program.signature m' → m = m')

include hsig

/-- Methods in the order of their signatures have increasing signatures. -/
theorem pairwise_lt_signature {l : List MethodId} (hl : l.Nodup) (hsub : ∀ m ∈ l, m ∈ g.methods) :
    ((Sorting.sort (fun a b => e.program.signature a ≤ e.program.signature b) l).map
      e.program.signature).Pairwise (· < ·) := by
  have hle := Sorting.pairwise_sort_key e.program.signature l
  have hne : (Sorting.sort (fun a b => e.program.signature a ≤ e.program.signature b) l).Nodup :=
    (Sorting.sort_perm _ l).nodup_iff.2 hl
  rw [List.pairwise_map]
  refine (hle.and hne).imp_of_mem fun {a b} ha hb h => Std.lt_of_le_of_ne h.1 fun heq => h.2 ?_
  exact hsig a (hsub a ((Sorting.mem_sort _).1 ha)) b (hsub b ((Sorting.mem_sort _).1 hb)) heq

include hg

omit hsig in
theorem mem_methods_of_mem_calleesOf {m : MethodId} (hm : m ∈ g.calleesOf s) : m ∈ g.methods := by
  obtain ⟨x, hx, -, rfl⟩ := (hg.recorded s m).1 ((hg.indexed s m).1 hm)
  exact (hg.joined x hx).2

/-- No callee is lost when their signatures are written. -/
theorem calleeSignatures_eq_map (s : SiteId) :
    calleeSignatures e g s = (sortedCallees e g s).map e.program.signature := by
  have hnodup : ((g.calleesOf s).toList.map e.program.signature).Nodup := by
    refine List.Nodup.map_on (fun m hm m' hm' heq => ?_) (g.calleesOf s).nodup
    exact hsig m (mem_methods_of_mem_calleesOf hg hm) m' (mem_methods_of_mem_calleesOf hg hm') heq
  have hperm : ((g.calleesOf s).toList.map e.program.signature).eraseDups.Perm
      ((g.calleesOf s).toList.map e.program.signature) :=
    (List.perm_ext_iff_of_nodup (Search.nodup_eraseDups _) hnodup).2 fun _ => List.mem_eraseDups
  rw [sortedCallees, Sorting.map_sort, calleeSignatures]
  exact Sorting.sort_key_eq hperm (fun _ _ => rfl) fun _ _ _ _ => id

variable (hsites : g.allSites.Nodup) (hcover : ∀ x ∈ g.links, x.1 ∈ g.allSites)

include hsites

omit hg hsig in
theorem nodup_sites_rows : ((rows e g).map Row.site).Nodup := by
  have hsorted : (sortedSites e g).Nodup := (sortedSites_perm e g).nodup_iff.2 hsites
  have hmap : (rows e g).map Row.site = (sortedSites e g).filter (isResolved g) := by
    simp [rows, Function.comp_def]
  rw [hmap]
  exact hsorted.filter _

include hcover

omit hsig in
/-- The rows show the edges, each once. -/
theorem perm_links_rows : ((rows e g).flatMap Row.links).Perm g.links := by
  have hnodup : ((rows e g).flatMap Row.links).Nodup := by
    rw [List.nodup_flatMap]
    constructor
    · intro r hr
      obtain ⟨-, -, hcallees⟩ := mem_rows.1 hr
      rw [Row.links, hcallees]
      refine List.Nodup.map (fun a b hab => (Prod.mk.inj hab).2) ?_
      exact (Sorting.sort_perm _ _).nodup_iff.2 (g.calleesOf r.site).nodup
    · -- rows of different call sites have no edge in common
      have hrows := List.pairwise_map.1 (nodup_sites_rows (e := e) hsites)
      refine hrows.imp fun {r r'} hne x hx hx' => hne ?_
      obtain ⟨m, -, rfl⟩ := List.mem_map.1 hx
      obtain ⟨m', -, heq⟩ := List.mem_map.1 hx'
      exact (Prod.mk.inj heq).1.symm
  refine (List.perm_ext_iff_of_nodup hnodup hg.distinct).2 ?_
  rintro ⟨s, m⟩
  show _ ↔ (s, m) ∈ g.links
  rw [hg.mem_links, List.mem_flatMap]
  constructor
  · rintro ⟨r, hr, hx⟩
    exact ((mem_links_row hr).1 hx).2
  · intro hm
    have hr : ⟨s, sortedCallees e g s⟩ ∈ rows e g :=
      mem_rows.2 ⟨hcover (s, m) (hg.mem_links.2 hm), isResolved_iff.2 ⟨m, hm⟩, rfl⟩
    exact ⟨_, hr, (mem_links_row hr).2 ⟨rfl, hm⟩⟩

/-- A dump is complete if all call sites of edges are listed, each once, and no two methods share a
signature. -/
theorem complete_dump : Complete e g (sortedMethods e g) (rows e g) := by
  have hperm := perm_links_rows (e := e) hg hsites hcover
  have hmethods : (sortedMethods e g).Perm g.methods.toList := Sorting.sort_perm _ _
  constructor
  case text =>
    have hrows : ((sortedSites e g).filter (isResolved g)).map (edgeLine e g) =
        (rows e g).map (Row.line e) := by
      simp only [rows, List.map_map]
      refine List.map_congr_left fun s _ => ?_
      simp only [Function.comp_apply, edgeLine, calleesText, Row.line,
        calleeSignatures_eq_map hg hsig]
    have hcount : g.edgeCount = ((rows e g).map fun r => r.callees.length).sum := by
      rw [← CallGraph.length_links, ← hperm.length_eq, List.length_flatMap]
      simp [Row.links]
    have hlength : g.methodCount = (sortedMethods e g).length := hmethods.length_eq.symm
    rw [dump, dumpLines, sheet, hrows, hcount, hlength]
  case increasing => exact pairwise_lt_signature hsig g.methods.nodup fun _ => id
  case perm => exact hmethods
  case sites => exact nodup_sites_rows hsites
  case edges => exact hperm
  case callees =>
    intro r hr
    obtain ⟨-, -, hcallees⟩ := mem_rows.1 hr
    rw [hcallees]
    exact pairwise_lt_signature hsig (g.calleesOf r.site).nodup
      fun m hm => mem_methods_of_mem_calleesOf hg hm
  case shown =>
    rintro ⟨s, m⟩ hx
    obtain ⟨r, hr, hxr⟩ := List.mem_flatMap.1 (hperm.mem_iff.2 hx)
    refine ⟨r, ⟨hr, hxr⟩, ?_⟩
    rintro r' ⟨hr', hxr'⟩
    refine List.inj_on_of_nodup_map (nodup_sites_rows (e := e) hsites) hr' hr ?_
    rw [((mem_links_row hr').1 hxr').1, ((mem_links_row hr).1 hxr).1]

end

end MethodGraph

/-! ### Runs -/

namespace Analysis

variable {a : Analysis}

/-- No call site is listed twice, since it is listed for its own method only. -/
theorem Located.nodup_allSites (h : a.Located) : a.methodGraph.allSites.Nodup := by
  have hhome : ∀ m, ∀ s ∈ a.methodGraph.sitesIn m, s.method = m := by
    intro m s hs
    obtain ⟨x, -, t, ht, rfl, rfl⟩ := (mem_sitesIn_methodGraph h).1 hs
    rw [h.site_home x t ht]
  rw [MethodGraph.allSites, List.nodup_flatMap]
  refine ⟨fun m _ => a.nodup_sitesIn_methodGraph m, a.methodGraph.methods.nodup.imp ?_⟩
  intro m m' hne s hs hs'
  exact hne ((hhome m s hs).symm.trans (hhome m' s hs'))

/-- If the call sites of all edges are recorded, those of the edges without contexts are. -/
theorem Located.mem_allSites (h : a.Located)
    (hsites : ∀ m e, (m, e) ∈ a.calls.calls → e.site ∈ a.calls.sitesIn m) {x : SiteId × MethodId}
    (hx : x ∈ a.methodGraph.links) : x.1 ∈ a.methodGraph.allSites := by
  obtain ⟨⟨m, e⟩, he, rfl⟩ := List.mem_map.1 hx
  obtain ⟨⟨y, e'⟩, hy, rfl, rfl⟩ := (mem_calls_methodGraph h).1 he
  have hcaller := (h.consistent.joined _ hy).1
  refine List.mem_flatMap.2 ⟨y.method, (mem_methods_methodGraph h).2 ⟨y, hcaller, rfl⟩, ?_⟩
  exact (mem_sitesIn_methodGraph h).2 ⟨y, hcaller, e'.site, hsites y e' hy, rfl, rfl⟩

end Analysis

namespace Solver

variable {q : Problem} {s : Solver .idle} {fuel : Nat}

/-- With a queue as worklist, the call site of every edge is recorded at the caller. -/
theorem mem_sitesIn_of_fifo (h : (q.solver .fifo).solve fuel = (s, .done ())) {m : CtxMethod}
    {e : CtxEdge} (he : (m, e) ∈ s.core.analysis.calls.calls) :
    e.site ∈ s.core.analysis.calls.sitesIn m := by
  have hedge : q.Derives (.edge m e) := (holds_iff_derives_of_fifo h).1 he
  have hsite : s.core.Holds (.site m e.site) :=
    (holds_iff_derives_of_fifo h).2 hedge.site_of_edge
  exact hsite

/-- **Dumps are complete.** After a run without plugins and with a queue as worklist that ends
without error, the dump lists the reachable methods by increasing signatures, and shows every edge
of the call graph on one line, if no two reachable methods share a signature. The numbers that it
announces are the number of its methods and the sum of the numbers of callees on its lines. -/
theorem dump_complete (h : (q.solver .fifo).solve fuel = (s, .done ()))
    (hsig : s.core.analysis.SignaturesDiffer) :
    ∃ methods rows,
      MethodGraph.Complete s.core.analysis.elements s.core.analysis.methodGraph methods rows ∧
        methods.Perm s.core.analysis.reachableMethods := by
  have hlocated := (solve_underway h).grounded.located
  have hconsistent := s.core.analysis.consistent_methodGraph
  have hreach : s.core.analysis.methodGraph.methods.toList.Perm
      s.core.analysis.reachableMethods := by
    refine (List.perm_ext_iff_of_nodup (OrderedSet.nodup _) (Search.nodup_eraseDups _)).2 ?_
    intro m
    exact (Analysis.mem_methods_methodGraph hlocated).trans Analysis.mem_reachableMethods.symm
  have hcomplete := MethodGraph.complete_dump (e := s.core.analysis.elements) hconsistent
    (fun m hm m' hm' heq => ?_) hlocated.nodup_allSites
    fun x hx => hlocated.mem_allSites (fun _ _ he => mem_sitesIn_of_fifo h he) hx
  · exact ⟨_, _, hcomplete, hcomplete.perm.trans hreach⟩
  · obtain ⟨x, hx, rfl⟩ := (Analysis.mem_methods_methodGraph hlocated).1 hm
    obtain ⟨x', hx', rfl⟩ := (Analysis.mem_methods_methodGraph hlocated).1 hm'
    exact hsig x hx x' hx' heq

/-- The dump after a visit shows the edges to `visit` and to `leave`. -/
theorem dump_complete_visitor :
    ∃ s, (Problem.visitor.solver .fifo).solve 100 = (s, .done ()) ∧
      s.core.analysis.SignaturesDiffer ∧ s.core.analysis.methodGraph.edgeCount = 2 ∧
      ∃ methods rows,
        MethodGraph.Complete s.core.analysis.elements s.core.analysis.methodGraph methods rows ∧
          methods.Perm s.core.analysis.reachableMethods := by
  have hdone : ((Problem.visitor.solver .fifo).solve 100).2 = .done () := by decide +kernel
  have hsig : ((Problem.visitor.solver .fifo).solve 100).1.core.analysis.SignaturesDiffer := by
    show ∀ m ∈ ((Problem.visitor.solver .fifo).solve 100).1.core.analysis.calls.methods.toList,
      ∀ m' ∈ ((Problem.visitor.solver .fifo).solve 100).1.core.analysis.calls.methods.toList, _
    decide +kernel
  have hcount :
      ((Problem.visitor.solver .fifo).solve 100).1.core.analysis.methodGraph.edgeCount = 2 := by
    decide +kernel
  generalize hr : (Problem.visitor.solver .fifo).solve 100 = r at hdone hsig hcount
  obtain ⟨s, v⟩ := r
  obtain rfl : v = .done () := hdone
  exact ⟨s, rfl, hsig, hcount, dump_complete hr hsig⟩

end Solver

end PointsTo
