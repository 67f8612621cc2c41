import PointsTo.Proofs.OrderIndependence

/-!
# Problems that ask for less

Two problems about the same program are compared by a map of contexts that agrees with what their
policies choose. Along such a map the rules of one problem become rules of the other, so that whole
results are compared without looking at the runs that lead to them.

* `ContextMap`: a map from the contexts of one policy to those of another one;
* `Problem.Derives.map` and `Problem.Faulty.map`: what the rules give is carried along;
* `Problem.exists_solves_of_map` and `Problem.holds_map`: so are results;
* `Analysis.SharesCode`: what the names in a result stand for, they stand for in another one;
* `Problem.within_of_entries`: fewer entries lead to a part of the result.
-/

namespace PointsTo

/-- The methods that are reachable in `a` have the same code in `b`, so that the names of their
variables, call sites and allocations stand for the same in both. -/
def Analysis.SharesCode (a b : Analysis) : Prop :=
  ∀ m ∈ a.calls.methods, b.elements.code m.method = a.elements.code m.method

/-- The same allocation, with its context replaced. -/
def Obj.mapHeap (h : Context → Context) (o : Obj) : Obj := ⟨o.site, h o.heap⟩

/-- A map of the contexts of methods and of those of objects, under which the choices of `policy`
become those of `policy'`. -/
structure ContextMap (policy policy' : ContextPolicy) where
  method : Context → Context
  heap : Context → Context
  method_nil : method [] = []
  method_callee : ∀ c id receiver, method (policy.calleeContext c id receiver) =
    policy'.calleeContext (method c) id (receiver.map (Obj.mapHeap heap))
  heap_make : ∀ c, heap (policy.heapContext c) = policy'.heapContext (method c)

namespace ContextMap

variable {policy policy' : ContextPolicy} (α : ContextMap policy policy')

/-- Contexts are kept as they are. -/
def refl (policy : ContextPolicy) : ContextMap policy policy where
  method := id
  heap := id
  method_nil := rfl
  method_callee c id receiver := by cases receiver <;> rfl
  heap_make _ := rfl

def obj (o : Obj) : Obj := o.mapHeap α.heap

def ctxMethod (m : CtxMethod) : CtxMethod := ⟨α.method m.ctx, m.method⟩

def ctxSite (s : CtxSite) : CtxSite := ⟨α.method s.ctx, s.site⟩

def edge (e : CtxEdge) : CtxEdge := ⟨e.kind, α.ctxSite e.site, α.ctxMethod e.callee⟩

def pointer : Pointer → Pointer
  | .var c v => .var (α.method c) v
  | .field o f => .field (α.obj o) f

/-- A fact, with its contexts replaced. -/
def fact : Fact → Fact
  | .reach m => .reach (α.ctxMethod m)
  | .site m s => .site (α.ctxMethod m) (α.ctxSite s)
  | .edge m e => .edge (α.ctxMethod m) (α.edge e)
  | .points p o => .points (α.pointer p) (α.obj o)
  | .flow a b => .flow (α.pointer a) (α.pointer b)

theorem fact_refl (policy : ContextPolicy) (f : Fact) : (refl policy).fact f = f := by
  have hpointer : ∀ p : Pointer, (refl policy).pointer p = p := fun p => by cases p <;> rfl
  cases f with
  | points p o => exact congrArg (Fact.points · o) (hpointer p)
  | flow a b => exact congrArg₂ Fact.flow (hpointer a) (hpointer b)
  | reach | site | edge => rfl

end ContextMap

namespace Problem

variable {p : Program} {entries entries' : List MethodId} {policy policy' : ContextPolicy}
  {m : CtxMethod} {s : StmtId} {id : SiteId} {o : Obj} {e : CtxEdge} {f : Fact}

section

variable (α : ContextMap policy policy')

/-- An edge to a callee becomes the edge to the same callee in the context that the other policy
chooses. -/
theorem edgeTo_map (p : Program) (entries entries' : List MethodId) (receiver : Option Obj)
    (callee : MethodId) :
    α.edge (edgeTo ⟨p, entries, policy⟩ m id receiver callee) =
      edgeTo ⟨p, entries', policy'⟩ (α.ctxMethod m) id (receiver.map α.obj) callee := by
  simp only [edgeTo, ContextMap.edge, ContextMap.ctxSite, ContextMap.ctxMethod, α.method_callee]
  rfl

theorem Effect.map (h : Effect ⟨p, entries, policy⟩ m s f) :
    Effect ⟨p, entries', policy'⟩ (α.ctxMethod m) s (α.fact f) := by
  cases h with
  | alloc h =>
    have hmake := Effect.alloc (q := ⟨p, entries', policy'⟩) (m := α.ctxMethod m) h
    rwa [show policy'.heapContext (α.ctxMethod m).ctx = _ from (α.heap_make m.ctx).symm] at hmake
  | assign h => exact .assign h
  | site h => exact .site h
  | call h hk =>
    rw [ContextMap.fact, edgeTo_map α p entries entries']
    exact .call h hk

theorem Dispatched.map (h : Dispatched ⟨p, entries, policy⟩ m id o f) :
    Dispatched ⟨p, entries', policy'⟩ (α.ctxMethod m) id (α.obj o) (α.fact f) := by
  cases h with
  | edge ht =>
    rw [ContextMap.fact, edgeTo_map α p entries entries']
    exact .edge ht
  | this ht hthis =>
    rw [ContextMap.fact, ContextMap.pointer, α.method_callee]
    exact .this ht hthis

theorem Reaction.map (h : Reaction ⟨p, entries, policy⟩ m s o f) :
    Reaction ⟨p, entries', policy'⟩ (α.ctxMethod m) s (α.obj o) (α.fact f) := by
  cases h with
  | load h => exact .load h
  | store h => exact .store h
  | call h hk hf => exact .call h hk (hf.map α)

theorem Binding.map (h : Binding ⟨p, entries, policy⟩ e f) :
    Binding ⟨p, entries', policy'⟩ (α.edge e) (α.fact f) := by
  cases h with
  | arg h => exact .arg h
  | result h hr => exact .result h hr
  | receiver hk hr ht => exact .receiver hk hr ht

variable (hentries : ∀ m ∈ entries, m ∈ entries')

include α hentries

/-- Every derivation becomes one of the other problem. -/
theorem Derives.map (h : Derives ⟨p, entries, policy⟩ f) :
    Derives ⟨p, entries', policy'⟩ (α.fact f) := by
  induction h with
  | entry hm =>
    rw [ContextMap.fact, ContextMap.ctxMethod, α.method_nil]
    exact .entry (hentries _ hm)
  | effect hm hs hf ih => exact .effect ih hs (hf.map α)
  | reaction hm hs hv ho hf ihm iho => exact .reaction ihm hs hv iho (hf.map α)
  | callee he ih => exact .callee ih
  | binding he hf ih => exact .binding ih (hf.map α)
  | subset hf ho ihf iho => exact .subset ihf iho

/-- So does every error that the rules lead to. -/
theorem Faulty.map (h : Faulty ⟨p, entries, policy⟩) : Faulty ⟨p, entries', policy'⟩ := by
  cases h with
  | lowering hm herr => exact .lowering (hm.map α hentries) herr
  | dispatch hm hs hv ho h hk ht =>
    exact .dispatch (hm.map α hentries) hs hv (ho.map α hentries) h hk ht

end

/-! ### Results -/

section

variable {s s' : Solver .idle} (α : ContextMap policy policy')
  (hentries : ∀ m ∈ entries, m ∈ entries')

include α hentries

/-- If the problem that asks for more has a result, so has the other one. -/
theorem exists_solves_of_map (hs' : Solves ⟨p, entries', policy'⟩ .fifo s') :
    ∃ s, Solves ⟨p, entries, policy⟩ .fifo s := by
  obtain ⟨fuel, hs'⟩ := hs'
  exact exists_solves (fun h => Solver.not_faulty_of_fifo hs' (h.map α hentries)) .fifo

theorem holds_map (hs : Solves ⟨p, entries, policy⟩ .fifo s)
    (hs' : Solves ⟨p, entries', policy'⟩ .fifo s') (hf : s.core.Holds f) :
    s'.core.Holds (α.fact f) := by
  obtain ⟨fuel, hs⟩ := hs
  obtain ⟨fuel', hs'⟩ := hs'
  have hd := (Solver.holds_iff_derives_of_fifo hs).1 hf
  exact (Solver.holds_iff_derives_of_fifo hs').2 (hd.map α hentries)

theorem sharesCode_of_map (hs : Solves ⟨p, entries, policy⟩ .fifo s)
    (hs' : Solves ⟨p, entries', policy'⟩ .fifo s') :
    s.core.analysis.SharesCode s'.core.analysis := by
  intro m hm
  have hm' : s'.core.Holds (.reach (α.ctxMethod m)) :=
    holds_map α hentries hs hs' (f := .reach m) hm
  obtain ⟨fuel, hs⟩ := hs
  obtain ⟨fuel', hs'⟩ := hs'
  have hcode := (Solver.solve_underway hs).grounded.tidy.code_eq (Solver.ran_of_fifo hs hm).1
  have hcode' := (Solver.solve_underway hs').grounded.tidy.code_eq (Solver.ran_of_fifo hs' hm').1
  exact hcode'.trans hcode.symm

end

theorem holds_of_entries {s s' : Solver .idle} (hentries : ∀ m ∈ entries, m ∈ entries')
    (hs : Solves ⟨p, entries, policy⟩ .fifo s) (hs' : Solves ⟨p, entries', policy⟩ .fifo s')
    (hf : s.core.Holds f) : s'.core.Holds f := by
  have hmap := holds_map (.refl policy) hentries hs hs' hf
  rwa [ContextMap.fact_refl] at hmap

/-- **Monotonicity in the entries.** If there is a result from some entries, there is one from any
part of them, and it is part of the former. With the same methods as entries, in any order and any
number, it is the same. -/
theorem within_of_entries {s' : Solver .idle} (hentries : ∀ m ∈ entries, m ∈ entries')
    (hs' : Solves ⟨p, entries', policy⟩ .fifo s') :
    ∃ s, Solves ⟨p, entries, policy⟩ .fifo s ∧ s.core.analysis.Within s'.core.analysis ∧
      s.core.analysis.SharesCode s'.core.analysis ∧
      ((∀ m ∈ entries', m ∈ entries) → s'.core.analysis.Within s.core.analysis ∧
        (s.core.analysis.SignaturesDiffer →
          MethodGraph.dump s'.core.analysis.elements s'.core.analysis.methodGraph =
            MethodGraph.dump s.core.analysis.elements s.core.analysis.methodGraph)) := by
  obtain ⟨s, hs⟩ := exists_solves_of_map (.refl policy) hentries hs'
  have hholds : ∀ f, s.core.Holds f → s'.core.Holds f := fun _ => holds_of_entries hentries hs hs'
  refine ⟨s, hs, Core.within_of_holds hholds, sharesCode_of_map (.refl policy) hentries hs hs', ?_⟩
  intro hentries'
  have hholds' : ∀ f, s'.core.Holds f → s.core.Holds f := fun _ => holds_of_entries hentries' hs' hs
  obtain ⟨fuel, hs⟩ := hs
  obtain ⟨fuel', hs'⟩ := hs'
  exact ⟨Core.within_of_holds hholds', Core.dump_eq_of_holds_iff (Solver.solve_underway hs).grounded
    (Solver.solve_underway hs').grounded (fun f => ⟨hholds' f, hholds f⟩) rfl
    (fun m hm => (Solver.ran_of_fifo hs hm).1) fun m hm => (Solver.ran_of_fifo hs' hm).1⟩

theorem within_of_entries_visitor :
    ∃ s', Solves ⟨visitor.program, [⟨1⟩, ⟨0⟩], .object 1⟩ .fifo s' ∧
      ∃ s, Solves ⟨visitor.program, [⟨0⟩, ⟨0⟩], .object 1⟩ .fifo s ∧
        s.core.analysis.Within s'.core.analysis := by
  have hdone :
      ((solver ⟨visitor.program, [⟨1⟩, ⟨0⟩], .object 1⟩ .fifo).solve 100).2 = .done () := by
    decide +kernel
  have hsub : ∀ m ∈ [⟨0⟩, ⟨0⟩], m ∈ [(⟨1⟩ : MethodId), ⟨0⟩] := by simp
  have hs' := solves_of_done hdone
  obtain ⟨s, hs, hwithin, -⟩ := within_of_entries hsub hs'
  exact ⟨_, hs', s, hs, hwithin⟩

end Problem

end PointsTo
