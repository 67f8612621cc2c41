import PointsTo.Proofs.CallGraph.Dump
import PointsTo.Proofs.Solver.Entries
import PointsTo.Proofs.Soundness

/-!
# The order of the worklist

With a queue as worklist, a run finds exactly the derived facts. With a stack it may find less: an
edge can be recorded before its caller becomes reachable, and the body of a method that got into the
call graph as a caller is never run. Such a caller is told by its call sites, which are not
recorded.

* `Problem.Solves`: a run ends without error;
* `Analysis.Within` and `Analysis.SameAs`: a result is part of another one, or says the same;
* `Problem.OrderIndependent`: the order of the worklist does not show in the result;
* `Problem.orderIndependent_iff`: this is so exactly if a stack leaves no call site out that an edge
  starts from;
* `Problem.not_orderIndependent_visitor`: it is not always so.
-/

namespace PointsTo

namespace Analysis

/-- Everything in `a` is in `b`. A pointer that is not there refers to nothing. -/
structure Within (a b : Analysis) : Prop where
  methods : ∀ m ∈ a.calls.methods, m ∈ b.calls.methods
  calls : ∀ x ∈ a.calls.calls, x ∈ b.calls.calls
  sites : ∀ m, ∀ s ∈ a.calls.sitesIn m, s ∈ b.calls.sitesIn m
  points : ∀ p, ∀ o ∈ a.heap.pointsTo p, o ∈ b.heap.pointsTo p

/-- No two reachable methods have the same signature. -/
def SignaturesDiffer (a : Analysis) : Prop :=
  ∀ m ∈ a.calls.methods, ∀ m' ∈ a.calls.methods,
    a.elements.program.signature m.method = a.elements.program.signature m'.method →
    m.method = m'.method

/-- The results say the same. Methods with the same signature stand in a dump in the order of their
discovery, so that the dumps are the same where signatures differ. -/
structure SameAs (a b : Analysis) : Prop where
  within : a.Within b
  contains : b.Within a
  methodGraph : a.methodGraph.SameAs b.methodGraph
  dump : a.SignaturesDiffer →
    MethodGraph.dump b.elements b.methodGraph = MethodGraph.dump a.elements a.methodGraph

end Analysis

namespace Problem

variable {q : Problem} {m : CtxMethod} {e : CtxEdge}

/-- A run with this order of the worklist ends without error in `s`. -/
def Solves (q : Problem) (order : WorklistOrder) (s : Solver .idle) : Prop :=
  ∃ fuel, (q.solver order).solve fuel = (s, .done ())

theorem solves_of_done {order : WorklistOrder} {fuel : Nat}
    (h : ((q.solver order).solve fuel).2 = .done ()) :
    q.Solves order ((q.solver order).solve fuel).1 := ⟨fuel, Prod.ext rfl h⟩

/-- A stack as worklist leads to a result exactly if a queue does, and to the same one. -/
def OrderIndependent (q : Problem) : Prop :=
  ((∃ s, q.Solves .lifo s) ↔ ∃ s, q.Solves .fifo s) ∧
    ∀ s s', q.Solves .fifo s → q.Solves .lifo s' → s.core.analysis.SameAs s'.core.analysis

/-- The call site of a derived edge is derived. -/
theorem Derives.site_of_edge (h : q.Derives (.edge m e)) : q.Derives (.site m e.site) := by
  obtain ⟨rfl, hm, -, s, lhs, hs⟩ := h.home
  have hbody := Program.mem_body_of_stmt? hs
  rw [← (Program.site_of_call hs).1] at hbody
  exact .effect hm hbody (.site hs)

/-- If the rules lead to no error, every run ends without one. -/
theorem exists_solves (h : ¬ q.Faulty) (order : WorklistOrder) : ∃ s, q.Solves order s := by
  obtain ⟨s, v, hv, fuel, heq⟩ := Solver.halts_agenda (q.grounded_solver order)
  cases v with
  | done => exact ⟨s, fuel, heq⟩
  | unfinished => exact absurd rfl hv
  | failed e =>
    have hfailed : ((q.solver order).settle fuel Solver.agenda).2 = .failed e := by rw [heq]
    have hjustified := (q.underway_solver order).justified
    exact absurd ((Solver.settle_grounded (q.grounded_solver order) hjustified).2 e hfailed) h

end Problem

namespace Core

variable {q : Problem} {c c' : Core}

theorem Grounded.located (hc : c.Grounded q) : c.analysis.Located where
  consistent := hc.tidy.calls
  edge_home m e h := (hc.derives (.edge m e) (.inl h)).home.1
  site_home m s h := (hc.derives (.site m s) (.inl h)).home.1
  kind_eq := by
    rintro ⟨m, e⟩ hx ⟨m', e'⟩ hy heq
    obtain ⟨-, -, hk, -⟩ := (hc.derives (.edge m e) (.inl hx)).home
    obtain ⟨-, -, hk', -⟩ := (hc.derives (.edge m' e') (.inl hy)).home
    exact hk.trans ((congrArg (fun s => (q.program.site s).kind) heq).trans hk'.symm)

/-- All methods of the call graph were run, if the call site of every edge is recorded. -/
theorem Complete.ran_of_sites (h : Complete q c [])
    (hsites : ∀ m e, c.Holds (.edge m e) → c.Holds (.site m e.site)) {m : CtxMethod}
    (hm : c.Holds (.reach m)) : c.Ran q [] m := by
  rcases h.ran m hm with hran | ⟨e, he⟩
  · exact hran
  · exact h.sites m e.site (hsites m e he)

theorem within_of_holds (h : ∀ f, c.Holds f → c'.Holds f) : c.analysis.Within c'.analysis where
  methods m := h (.reach m)
  calls x := h (.edge x.1 x.2)
  sites m s := h (.site m s)
  points p o := h (.points p o)

/-! ### States with the same facts -/

section

variable {q' : Problem} (hc : c.Grounded q) (hc' : c'.Grounded q')
  (h : ∀ f, c'.Holds f ↔ c.Holds f)

include hc

theorem Grounded.fits (hb : ∀ m, c.Holds (.reach m) → c.IsBuilt m.method) :
    c.analysis.methodGraph.Fits c.analysis.elements where
  consistent := c.analysis.consistent_methodGraph
  code m hm := by
    obtain ⟨x, hx, rfl⟩ := (Analysis.mem_methods_methodGraph hc.located).1 hm
    have hcode : c.analysis.elements.code x.method = q.program.code x.method :=
      hc.tidy.code_eq (hb x hx)
    rw [hcode]
    exact q.program.code_wellFormed x.method
  sites m _ s hs := by
    obtain ⟨x, hx, t, ht, rfl, rfl⟩ := (Analysis.mem_sitesIn_methodGraph hc.located).1 hs
    obtain ⟨rfl, -, st, lhs, hst⟩ := (hc.derives (.site x t) (.inl ht)).home
    have hcode : c.analysis.elements.code t.site.method = q.program.code t.site.method :=
      hc.tidy.code_eq (hb _ hx)
    obtain ⟨hmethod, -, site, hsite, -⟩ := Program.fits_of_stmt? hst
    rw [← hmethod, ← hcode] at hsite
    exact ⟨rfl, (List.getElem?_eq_some_iff.1 hsite).1⟩
  nodup := c.analysis.nodup_sitesIn_methodGraph

include hc' h

theorem methodGraph_sameMembers :
    c.analysis.methodGraph.SameMembers c'.analysis.methodGraph where
  methods m := by
    rw [Analysis.mem_methods_methodGraph hc'.located, Analysis.mem_methods_methodGraph hc.located]
    exact exists_congr fun x => and_congr_left fun _ => h (.reach x)
  sites m s := by
    rw [Analysis.mem_sitesIn_methodGraph hc'.located, Analysis.mem_sitesIn_methodGraph hc.located]
    exact exists_congr fun x => and_congr (h (.reach x))
      (exists_congr fun t => and_congr_left fun _ => h (.site x t))
  calls m e := by
    rw [Analysis.mem_calls_methodGraph hc'.located, Analysis.mem_calls_methodGraph hc.located]
    exact exists_congr fun x => and_congr_left fun _ => h (.edge x.1 x.2)

variable (hq : q'.program = q.program) (hb : ∀ m, c.Holds (.reach m) → c.IsBuilt m.method)
  (hb' : ∀ m, c'.Holds (.reach m) → c'.IsBuilt m.method)

include hq hb hb'

/-- States in which the same facts hold have the same dump, if the methods were lowered. -/
theorem dump_eq_of_holds_iff (hsig : c.analysis.SignaturesDiffer) :
    MethodGraph.dump c'.analysis.elements c'.analysis.methodGraph =
      MethodGraph.dump c.analysis.elements c.analysis.methodGraph := by
  have hprogram : c'.analysis.elements.program = c.analysis.elements.program :=
    (hc'.tidy.program_eq.trans hq).trans hc.tidy.program_eq.symm
  have hfits := hc.fits hb
  refine (methodGraph_sameMembers hc hc' h).dump_eq hfits (hc'.fits hb')
    (fun m hm => ⟨hprogram, ?_, hfits.code m hm⟩) hprogram ?_
  · obtain ⟨x, hx, rfl⟩ := (Analysis.mem_methods_methodGraph hc.located).1 hm
    have hcode' := hc'.tidy.code_eq (hb' x ((h (.reach x)).2 hx))
    rw [hq] at hcode'
    exact hcode'.trans (hc.tidy.code_eq (hb x hx)).symm
  · intro m hm m' hm' heq
    obtain ⟨x, hx, rfl⟩ := (Analysis.mem_methods_methodGraph hc.located).1 hm
    obtain ⟨x', hx', rfl⟩ := (Analysis.mem_methods_methodGraph hc.located).1 hm'
    exact hsig x hx x' hx' heq

/-- They have the same results, if they have the same entries as well. -/
theorem sameAs_of_holds_iff
    (hentries : c'.analysis.calls.entries = c.analysis.calls.entries) :
    c.analysis.SameAs c'.analysis := by
  refine ⟨within_of_holds fun f => (h f).2, within_of_holds fun f => (h f).1,
    ⟨methodGraph_sameMembers hc hc' h, ?_⟩, dump_eq_of_holds_iff hc hc' h hq hb hb'⟩
  rw [Analysis.entries_methodGraph, Analysis.entries_methodGraph, hentries]

end

end Core

namespace Problem

variable {q : Problem} {s s' : Solver .idle}

/-- Where a queue leads to a result, a stack leads to a part of it. -/
theorem exists_lifo_within (hs : q.Solves .fifo s) :
    ∃ s', q.Solves .lifo s' ∧ s'.core.analysis.Within s.core.analysis := by
  obtain ⟨fuel, hs⟩ := hs
  obtain ⟨s', fuel', hs'⟩ := exists_solves (Solver.not_faulty_of_fifo hs) .lifo
  refine ⟨s', ⟨fuel', hs'⟩, Core.within_of_holds fun f hf => ?_⟩
  exact (Solver.holds_iff_derives_of_fifo hs).2
    ((Solver.solve_underway hs').grounded.derives f (.inl hf))

/-- Where a stack leaves no call site out, it finds what a queue finds. -/
theorem sameAs_of_sites (hs : q.Solves .fifo s) (hs' : q.Solves .lifo s')
    (hsites : ∀ m e, s'.core.Holds (.edge m e) → s'.core.Holds (.site m e.site)) :
    s.core.analysis.SameAs s'.core.analysis := by
  obtain ⟨fuel, hs⟩ := hs
  obtain ⟨fuel', hs'⟩ := hs'
  have hend := Solver.solve_underway hs
  have hend' := Solver.solve_underway hs'
  have hran' : ∀ m, s'.core.Holds (.reach m) → s'.core.Ran q [] m := fun m =>
    hend'.complete.ran_of_sites hsites
  refine Core.sameAs_of_holds_iff hend.grounded hend'.grounded (fun f => ?_) rfl
    (fun m hm => (Solver.ran_of_fifo hs hm).1) (fun m hm => (hran' m hm).1) ?_
  · rw [hend'.holds_iff_derives hran', Solver.holds_iff_derives_of_fifo hs]
  · rw [Solver.entries_of_solve hs, Solver.entries_of_solve hs']

/-- **The order of the worklist.** A stack as worklist leads to the same results as a queue exactly
if its own result has recorded the call site of every edge at the caller. -/
theorem orderIndependent_iff (q : Problem) :
    q.OrderIndependent ↔ ∀ s, q.Solves .lifo s → ∀ m e, (m, e) ∈ s.core.analysis.calls.calls →
      e.site ∈ s.core.analysis.calls.sitesIn m := by
  constructor
  · rintro ⟨hsolves, hsame⟩ s' hs' m e he
    obtain ⟨s, fuel, hs⟩ := hsolves.1 ⟨s', hs'⟩
    have hsame := hsame s s' ⟨fuel, hs⟩ hs'
    -- a queue has recorded the call site, since it has the edge
    have hd : q.Derives (.edge m e) :=
      (Solver.holds_iff_derives_of_fifo hs).1 (hsame.contains.calls (m, e) he)
    have hsite : s.core.Holds (.site m e.site) :=
      (Solver.holds_iff_derives_of_fifo hs).2 hd.site_of_edge
    exact hsame.within.sites m e.site hsite
  · intro hsites
    refine ⟨⟨?_, ?_⟩, fun s s' hs hs' => sameAs_of_sites hs hs' (hsites s' hs')⟩
    · rintro ⟨s', fuel', hs'⟩
      have hend' := Solver.solve_underway hs'
      -- the body of every method was run, so the rules lead to no error that a queue could meet
      have hran' : ∀ m, s'.core.Holds (.reach m) → s'.core.Ran q [] m := fun m =>
        hend'.complete.ran_of_sites (hsites s' ⟨fuel', hs'⟩)
      exact exists_solves (hend'.complete.not_faulty hend'.idle hran') .fifo
    · rintro ⟨s, hs⟩
      obtain ⟨s', hs', -⟩ := exists_lifo_within hs
      exact ⟨s', hs'⟩

/-- When the visited object is left before the other one is made, a stack misses the latter. -/
theorem not_orderIndependent_visitor :
    (∃ s s', visitor.Solves .fifo s ∧ visitor.Solves .lifo s' ∧
      ⟨⟨⟨1⟩, 1⟩, []⟩ ∈ s.core.analysis.heap.pointsTo (.var [] ⟨⟨1⟩, 1⟩) ∧
      ⟨⟨⟨1⟩, 1⟩, []⟩ ∉ s'.core.analysis.heap.pointsTo (.var [] ⟨⟨1⟩, 1⟩)) ∧
    ¬ visitor.OrderIndependent := by
  have hfifo : ((visitor.solver .fifo).solve 100).2 = .done () := by decide +kernel
  have hlifo : ((visitor.solver .lifo).solve 100).2 = .done () := by decide +kernel
  have hfound : ⟨⟨⟨1⟩, 1⟩, []⟩ ∈
      ((visitor.solver .fifo).solve 100).1.core.analysis.heap.pointsTo (.var [] ⟨⟨1⟩, 1⟩) := by
    decide +kernel
  have hmissed : ⟨⟨⟨1⟩, 1⟩, []⟩ ∉
      ((visitor.solver .lifo).solve 100).1.core.analysis.heap.pointsTo (.var [] ⟨⟨1⟩, 1⟩) := by
    decide +kernel
  generalize hr : (visitor.solver .fifo).solve 100 = r at hfifo hfound
  generalize hr' : (visitor.solver .lifo).solve 100 = r' at hlifo hmissed
  obtain ⟨s, v⟩ := r
  obtain ⟨s', v'⟩ := r'
  obtain rfl : v = .done () := hfifo
  obtain rfl : v' = .done () := hlifo
  refine ⟨⟨s, s', ⟨100, hr⟩, ⟨100, hr'⟩, hfound, hmissed⟩, fun h => hmissed ?_⟩
  exact (h.2 s s' ⟨100, hr⟩ ⟨100, hr'⟩).within.points _ _ hfound

end Problem

end PointsTo
