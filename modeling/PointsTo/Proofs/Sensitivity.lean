import PointsTo.Proofs.Monotonicity
import PointsTo.Proofs.Solver.Works

/-!
# Context sensitivity

Policies that keep more of a context tell more methods and objects apart. What a policy with a
smaller limit keeps are suffixes of what one with a larger limit keeps, and taking suffixes agrees
with the choices of both. So the larger limit leads to a result that refines the other one.

* `ContextFamily.limit`: the policies that keep call sites, or allocation sites, up to a limit;
* `ContextFamily.truncate`: taking suffixes is a map from a larger limit to a smaller one;
* `Problem.Derives.fact_eq`: a map of a policy to itself leaves derived facts as they are;
* `Analysis.Refines`: with contexts left out, a result is contained in another one;
* `Problem.refines_of_le`: larger limits refine the result, and with the limit zero it is the one
  without contexts.
-/

namespace PointsTo

/-- With contexts left out, everything in `a` is in `b`. -/
structure Analysis.Refines (a b : Analysis) : Prop where
  code : a.SharesCode b
  methods : ∀ m ∈ a.reachableMethods, m ∈ b.reachableMethods
  calls : ∀ x ∈ a.methodGraph.calls, x ∈ b.methodGraph.calls
  allocSites : ∀ v, ∀ s ∈ a.allocSites v, s ∈ b.allocSites v

/-! ### Maps between policies -/

/-- What contexts are made of, when there are any. -/
inductive ContextFamily where
  | callSite
  | object

namespace ContextFamily

/-- The policy of the family that keeps `k` elements. -/
def limit : ContextFamily → Nat → ContextPolicy
  | .callSite => .callSite
  | .object => .object

/-- Contexts within a limit become contexts within a smaller limit. -/
def truncate (family : ContextFamily) {j k : Nat} (h : j ≤ k) :
    ContextMap (family.limit k) (family.limit j) where
  method c := c.suffix j
  heap c := c.suffix (j - 1)
  method_nil := Context.suffix_nil j
  method_callee c id receiver := by
    cases family with
    | callSite =>
      show (c.append (.call id) k).suffix j = (c.suffix j).append (.call id) j
      rw [Context.append_suffix (Nat.le_succ j)]
      exact Context.suffix_suffix h _
    | object =>
      cases receiver with
      | none => rfl
      | some o =>
        -- the contexts of objects keep one element less, and the allocation takes its place
        show (o.heap.append (.alloc o.site) k).suffix j =
          (o.heap.suffix (j - 1)).append (.alloc o.site) j
        rw [Context.append_suffix (Nat.le_add_of_sub_le (Nat.le_refl (j - 1)))]
        exact Context.suffix_suffix h _
  heap_make c := by
    have hheap : (c.suffix (k - 1)).suffix (j - 1) = (c.suffix j).suffix (j - 1) := by
      rw [Context.suffix_suffix (Nat.sub_le_sub_right h 1), Context.suffix_suffix (Nat.sub_le j 1)]
    cases family <;> exact hheap

end ContextFamily

namespace ContextPolicy

variable {policy : ContextPolicy}

/-- A policy that keeps nothing never leaves the empty context. -/
theorem calleeContext_nil (h : policy.depth = 0) (id : SiteId) (receiver : Option Obj) :
    policy.calleeContext [] id receiver = [] := by
  cases policy with
  | insensitive => rfl
  | callSite k =>
    cases h
    rfl
  | object k =>
    cases h
    cases receiver with
    | none => rfl
    | some o => exact Context.suffix_zero _

theorem heapContext_nil (policy : ContextPolicy) : policy.heapContext [] = [] := by
  cases policy with
  | insensitive => rfl
  | callSite k | object k => exact Context.suffix_nil (k - 1)

end ContextPolicy

/-- All contexts become the empty one, under a policy that keeps nothing. -/
def ContextMap.collapse (policy : ContextPolicy) {policy' : ContextPolicy} (h : policy'.depth = 0) :
    ContextMap policy policy' where
  method _ := []
  heap _ := []
  method_nil := rfl
  method_callee _ id receiver := (ContextPolicy.calleeContext_nil h id (receiver.map _)).symm
  heap_make _ := policy'.heapContext_nil.symm

/-! ### Contexts in derived facts -/

namespace Problem

variable {p : Program} {entries : List MethodId} {policy policy' : ContextPolicy} {m : CtxMethod}
  {s : StmtId} {id : SiteId} {o : Obj} {e : CtxEdge} {f : Fact}

section

variable (α : ContextMap policy policy)

theorem edgeTo_eq (hm : α.ctxMethod m = m) {receiver : Option Obj}
    (hr : receiver.map α.obj = receiver) (callee : MethodId) :
    α.edge (edgeTo ⟨p, entries, policy⟩ m id receiver callee) =
      edgeTo ⟨p, entries, policy⟩ m id receiver callee := by
  rw [edgeTo_map α p entries entries, hm, hr]

theorem Effect.fact_eq (h : Effect ⟨p, entries, policy⟩ m s f) (hm : α.ctxMethod m = m) :
    α.fact f = f := by
  have hctx : α.method m.ctx = m.ctx := congrArg CtxMethod.ctx hm
  cases h with
  | alloc h =>
    simp only [ContextMap.fact, ContextMap.pointer, ContextMap.obj, Obj.mapHeap, α.heap_make, hctx]
  | assign h => simp only [ContextMap.fact, ContextMap.pointer, hctx]
  | site h => simp only [ContextMap.fact, ContextMap.ctxSite, hctx, hm]
  | call h hk => rw [ContextMap.fact, edgeTo_eq α hm rfl, hm]

theorem Dispatched.fact_eq (h : Dispatched ⟨p, entries, policy⟩ m id o f)
    (hm : α.ctxMethod m = m) (ho : α.obj o = o) : α.fact f = f := by
  have hctx : α.method m.ctx = m.ctx := congrArg CtxMethod.ctx hm
  have hreceiver : (some o).map α.obj = some o := congrArg some ho
  cases h with
  | edge ht => rw [ContextMap.fact, edgeTo_eq α hm hreceiver, hm]
  | this ht hthis =>
    rw [ContextMap.fact, ContextMap.pointer, α.method_callee, hctx, ho]
    exact congrArg (fun r => Fact.points (.var (policy.calleeContext m.ctx id r) _) o) hreceiver

theorem Reaction.fact_eq (h : Reaction ⟨p, entries, policy⟩ m s o f) (hm : α.ctxMethod m = m)
    (ho : α.obj o = o) : α.fact f = f := by
  have hctx : α.method m.ctx = m.ctx := congrArg CtxMethod.ctx hm
  cases h with
  | load h => simp only [ContextMap.fact, ContextMap.pointer, ho, hctx]
  | store h => simp only [ContextMap.fact, ContextMap.pointer, ho, hctx]
  | call h hk hf => exact hf.fact_eq α hm ho

theorem Binding.fact_eq (h : Binding ⟨p, entries, policy⟩ e f) (he : α.edge e = e) :
    α.fact f = f := by
  have hsite : α.method e.site.ctx = e.site.ctx := congrArg (fun x : CtxEdge => x.site.ctx) he
  have hcallee : α.method e.callee.ctx = e.callee.ctx :=
    congrArg (fun x : CtxEdge => x.callee.ctx) he
  cases h <;> simp only [ContextMap.fact, ContextMap.pointer, hsite, hcallee]

/-- All contexts in derived facts go back to the empty one by choices of the policy, so that a map
which agrees with these choices leaves them as they are. -/
theorem Derives.fact_eq (h : Derives ⟨p, entries, policy⟩ f) : α.fact f = f := by
  induction h with
  | entry hm => rw [ContextMap.fact, ContextMap.ctxMethod, α.method_nil]
  | effect hm hs hf ih => exact hf.fact_eq α (Fact.reach.inj ih)
  | reaction hm hs hv ho hf ihm iho =>
    exact hf.fact_eq α (Fact.reach.inj ihm) (Fact.points.inj iho).2
  | callee he ih => exact congrArg (fun x : CtxEdge => Fact.reach x.callee) (Fact.edge.inj ih).2
  | binding he hf ih => exact hf.fact_eq α (Fact.edge.inj ih).2
  | subset hf ho ihf iho =>
    exact congrArg₂ Fact.points (Fact.flow.inj ihf).2 (Fact.points.inj iho).2

end

/-! ### Policies that keep nothing -/

section

variable {s s' : Solver .idle} (h : policy.depth = 0) (h' : policy'.depth = 0)

include h h'

theorem holds_of_depth (hs : Solves ⟨p, entries, policy⟩ .fifo s)
    (hs' : Solves ⟨p, entries, policy'⟩ .fifo s') (hf : s.core.Holds f) : s'.core.Holds f := by
  have hmap := holds_map (.collapse policy h') (fun _ => id) hs hs' hf
  obtain ⟨fuel, hs⟩ := hs
  have hd := (Solver.holds_iff_derives_of_fifo hs).1 hf
  -- the map to the other policy does the same to facts as the one to `policy` itself
  have hfact : (ContextMap.collapse policy h').fact f = f := hd.fact_eq (.collapse policy h)
  rwa [hfact] at hmap

/-- Policies that keep nothing lead to the same results. -/
theorem sameAs_of_depth (hs : Solves ⟨p, entries, policy⟩ .fifo s)
    (hs' : Solves ⟨p, entries, policy'⟩ .fifo s') : s.core.analysis.SameAs s'.core.analysis := by
  have hholds : ∀ f, s'.core.Holds f ↔ s.core.Holds f := fun f =>
    ⟨holds_of_depth h' h hs' hs, holds_of_depth h h' hs hs'⟩
  obtain ⟨fuel, hs⟩ := hs
  obtain ⟨fuel', hs'⟩ := hs'
  refine Core.sameAs_of_holds_iff (Solver.solve_underway hs).grounded
    (Solver.solve_underway hs').grounded hholds rfl
    (fun m hm => (Solver.ran_of_fifo hs hm).1) (fun m hm => (Solver.ran_of_fifo hs' hm).1) ?_
  rw [Solver.entries_of_solve hs, Solver.entries_of_solve hs']

end

/-! ### Refinement -/

theorem Solves.wellFormed {q : Problem} {order : WorklistOrder} {s : Solver .idle}
    (h : q.Solves order s) : s.core.WellFormed := by
  obtain ⟨fuel, h⟩ := h
  have hstart : (q.solver order).core.WellFormed :=
    Solver.wellFormed_create .idle (.fresh q.program q.entries) [] q.entries q.policy order
  have hsane : ∀ t ∈ Solver.agenda, t.Sane (q.solver order).core := by
    simp [Solver.agenda, Task.Sane]
  have hend := Solver.settle_sane hstart hsane fuel
  rwa [show (q.solver order).settle fuel Solver.agenda = (s, .done ()) from h] at hend

theorem Solves.located {q : Problem} {order : WorklistOrder} {s : Solver .idle}
    (h : q.Solves order s) : s.core.analysis.Located := by
  obtain ⟨fuel, h⟩ := h
  exact (Solver.solve_underway h).grounded.located

/-- Along a map of contexts, the result of one problem is refined by that of the other. -/
theorem refines_of_map {entries' : List MethodId} {s s' : Solver .idle}
    (α : ContextMap policy policy') (hentries : ∀ m ∈ entries, m ∈ entries')
    (hs : Solves ⟨p, entries, policy⟩ .fifo s) (hs' : Solves ⟨p, entries', policy'⟩ .fifo s') :
    s.core.analysis.Refines s'.core.analysis where
  code := sharesCode_of_map α hentries hs hs'
  methods m hm := by
    obtain ⟨x, hx, rfl⟩ := Analysis.mem_reachableMethods.1 hm
    have hx' := holds_map α hentries hs hs' (f := .reach x) hx
    exact Analysis.mem_reachableMethods.2 ⟨_, hx', rfl⟩
  calls := by
    rintro ⟨m, e⟩ he
    obtain ⟨⟨x, y⟩, hy, rfl, rfl⟩ := (Analysis.mem_calls_methodGraph hs.located).1 he
    have hy' := holds_map α hentries hs hs' (f := .edge x y) hy
    exact (Analysis.mem_calls_methodGraph hs'.located).2 ⟨_, hy', rfl, rfl⟩
  allocSites v st hst := by
    obtain ⟨ctx, o, ho, rfl⟩ := hs.wellFormed.mem_allocSites.1 hst
    have ho' := holds_map α hentries hs hs' (f := .points (.var ctx v) o) ho
    exact hs'.wellFormed.mem_allocSites.2 ⟨_, _, ho', rfl⟩

/-- **Context sensitivity refines.** In either family of policies, if there is a result with a limit
on contexts, there is one with every larger limit, and it refines the former. With the limit zero,
the results are those without contexts. -/
theorem refines_of_le (p : Program) (entries : List MethodId) (family : ContextFamily) :
    (∀ j k s, j ≤ k → Solves ⟨p, entries, family.limit j⟩ .fifo s →
      (∃ s', Solves ⟨p, entries, family.limit k⟩ .fifo s') ∧
        ∀ s', Solves ⟨p, entries, family.limit k⟩ .fifo s' →
          s'.core.analysis.Refines s.core.analysis) ∧
    ((∃ s, Solves ⟨p, entries, family.limit 0⟩ .fifo s) ↔
      ∃ s, Solves ⟨p, entries, .insensitive⟩ .fifo s) ∧
    ∀ s s', Solves ⟨p, entries, family.limit 0⟩ .fifo s →
      Solves ⟨p, entries, .insensitive⟩ .fifo s' → s.core.analysis.SameAs s'.core.analysis := by
  have hself : ∀ m ∈ entries, m ∈ entries := fun _ => id
  have hzero : (family.limit 0).depth = 0 := by cases family <;> rfl
  refine ⟨fun j k s hle hs => ⟨?_, fun s' hs' => ?_⟩, ⟨?_, ?_⟩, fun s s' hs hs' => ?_⟩
  · exact exists_solves_of_map (family.truncate hle) hself hs
  · exact refines_of_map (family.truncate hle) hself hs' hs
  · rintro ⟨s, hs⟩
    exact exists_solves_of_map (.collapse .insensitive hzero) hself hs
  · rintro ⟨s, hs⟩
    exact exists_solves_of_map (.collapse (family.limit 0) rfl) hself hs
  · exact sameAs_of_depth hzero rfl hs hs'

end Problem

/-- A small program: `main` has two objects handed back to it by the same method. -/
def Program.twice : Program where
  classes := [{ name := "A" }]
  methods :=
    [{ owner := ⟨0⟩, name := "main", isStatic := true
       body := some
        { locals := [⟨"x", .cls ⟨0⟩⟩, ⟨"y", .cls ⟨0⟩⟩, ⟨"u", .cls ⟨0⟩⟩, ⟨"v", .cls ⟨0⟩⟩]
          instructions :=
            [.assign (.local ⟨0⟩) (.new ⟨0⟩), .assign (.local ⟨1⟩) (.new ⟨0⟩),
             .assign (.local ⟨2⟩) (.invoke ⟨0xb8, ⟨1⟩, none, [.local ⟨0⟩]⟩),
             .assign (.local ⟨3⟩) (.invoke ⟨0xb8, ⟨1⟩, none, [.local ⟨1⟩]⟩)] } },
     { owner := ⟨0⟩, name := "same", params := [.cls ⟨0⟩], result := some (.cls ⟨0⟩)
       isStatic := true
       body := some
        { paramLocals := [⟨0⟩], locals := [⟨"z", .cls ⟨0⟩⟩]
          instructions := [.leave (some (.local ⟨0⟩))] } }]

/-- A context of one call site tells the calls apart. Without contexts both objects come back. -/
theorem Problem.refines_of_le_twice :
    ∃ s₀ s s', Solves ⟨.twice, [⟨0⟩], .insensitive⟩ .fifo s₀ ∧
      Solves ⟨.twice, [⟨0⟩], .callSite 0⟩ .fifo s ∧ Solves ⟨.twice, [⟨0⟩], .callSite 1⟩ .fifo s' ∧
      s.core.analysis.SameAs s₀.core.analysis ∧ s'.core.analysis.Refines s.core.analysis ∧
      s.core.analysis.allocSites ⟨⟨0⟩, 2⟩ = [⟨⟨0⟩, 0⟩, ⟨⟨0⟩, 1⟩] ∧
      s'.core.analysis.allocSites ⟨⟨0⟩, 2⟩ = [⟨⟨0⟩, 0⟩] := by
  obtain ⟨s, hs, hboth⟩ : ∃ s, Solves ⟨.twice, [⟨0⟩], .callSite 0⟩ .fifo s ∧
      s.core.analysis.allocSites ⟨⟨0⟩, 2⟩ = [⟨⟨0⟩, 0⟩, ⟨⟨0⟩, 1⟩] :=
    ⟨((solver ⟨.twice, [⟨0⟩], .callSite 0⟩ .fifo).solve 100).1,
      solves_of_done (by decide +kernel), by decide +kernel⟩
  obtain ⟨s', hs', hfirst⟩ : ∃ s, Solves ⟨.twice, [⟨0⟩], .callSite 1⟩ .fifo s ∧
      s.core.analysis.allocSites ⟨⟨0⟩, 2⟩ = [⟨⟨0⟩, 0⟩] :=
    ⟨((solver ⟨.twice, [⟨0⟩], .callSite 1⟩ .fifo).solve 100).1,
      solves_of_done (by decide +kernel), by decide +kernel⟩
  obtain ⟨hle, hiff, hsame⟩ := refines_of_le .twice [⟨0⟩] .callSite
  obtain ⟨s₀, hs₀⟩ := hiff.1 ⟨s, hs⟩
  exact ⟨s₀, s, s', hs₀, hs, hs', hsame s s₀ hs hs₀,
    (hle 0 1 s (Nat.zero_le 1) hs).2 s' hs', hboth, hfirst⟩

end PointsTo
