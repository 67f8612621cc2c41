import PointsTo.Proofs.Elements.Numbering
import PointsTo.Solver.Run

/-!
# Everything only grows

Whatever the solver and its plugins do, and whether they fail or not, what was found stays and what
was numbered keeps its number.

* `Core.Extends`: contexts, objects, pointers, methods and call edges are continued at their ends,
  points-to sets and the flow graph only gain members, and the element tables are extended;
* `Core.perform_extends`: a task extends the state;
* `Solver.settle_extends`: so does every agenda;
* `Solver.step_extends`: so does every step, from any state.
-/

namespace PointsTo

namespace Core

/-- What was found and numbered in `c` is there in `c'`, with the same numbers. -/
structure Extends (c c' : Core) : Prop where
  contexts : c.analysis.contexts.set.toList <+: c'.analysis.contexts.set.toList
  /-- The objects, named by allocation and heap context, with their types. -/
  objs : c.analysis.heap.objs.entries <+: c'.analysis.heap.objs.entries
  pointers : c.analysis.heap.pointers.keys <+: c'.analysis.heap.pointers.keys
  pointsTo : ∀ p, ∀ o ∈ c.pointsTo p, o ∈ c'.pointsTo p
  methods : c.analysis.calls.methods.toList <+: c'.analysis.calls.methods.toList
  calls : c.analysis.calls.calls <+: c'.analysis.calls.calls
  flow : ∀ a b, c.flow.hasEdge a b = true → c'.flow.hasEdge a b = true
  elements : c.elements.Extends c'.elements

variable {c c₁ c₂ : Core}

namespace Extends

theorem refl (c : Core) : c.Extends c :=
  ⟨List.prefix_refl _, List.prefix_refl _, List.prefix_refl _, fun _ _ => id, List.prefix_refl _,
    List.prefix_refl _, fun _ _ => id, .refl _⟩

theorem trans (h₁ : c.Extends c₁) (h₂ : c₁.Extends c₂) : c.Extends c₂ where
  contexts := h₁.contexts.trans h₂.contexts
  objs := h₁.objs.trans h₂.objs
  pointers := h₁.pointers.trans h₂.pointers
  pointsTo p o ho := h₂.pointsTo p o (h₁.pointsTo p o ho)
  methods := h₁.methods.trans h₂.methods
  calls := h₁.calls.trans h₂.calls
  flow a b hab := h₂.flow a b (h₁.flow a b hab)
  elements := h₁.elements.trans h₂.elements

/-- What else belongs to the state does not matter. -/
theorem of_eq (h : c.Extends c₁) (hanalysis : c₂.analysis = c₁.analysis)
    (hflow : c₂.flow = c₁.flow) : c.Extends c₂ := by
  obtain ⟨hcontexts, hobjs, hpointers, hpoints, hmethods, hcalls, hedges, helements⟩ := h
  rw [← hanalysis] at hcontexts hobjs hpointers hmethods hcalls
  simp only [Core.pointsTo, Core.elements, ← hanalysis, ← hflow] at hpoints hedges helements
  exact ⟨hcontexts, hobjs, hpointers, hpoints, hmethods, hcalls, hedges, helements⟩

/-- What extends a state at each member of a list, the list does. -/
theorem foldl {α : Type} {f : Core → α → Core} (h : c.Extends c₁)
    (hf : ∀ c₁ : Core, c.Extends c₁ → ∀ a, c.Extends (f c₁ a)) (l : List α) :
    c.Extends (l.foldl f c₁) := by
  induction l generalizing c₁ with
  | nil => exact h
  | cons a l ih => exact ih (hf c₁ h a)

/-! ### Operations -/

theorem withElements {e : Elements} (h : c.Extends c₁) (he : c₁.elements.Develops e) :
    c.Extends (c₁.withElements e) :=
  { h with elements := h.elements.trans he.extends }

theorem tell (h : c.Extends c₁) (level : Level) (text : String) : c.Extends (c₁.tell level text) :=
  h.withElements (.tell .refl level text)

theorem push (h : c.Extends c₁) (i : WorkItem) : c.Extends (c₁.push i) := h.of_eq rfl rfl

theorem useContext (h : c.Extends c₁) (x : Context) : c.Extends (c₁.useContext x) :=
  { h with contexts := h.contexts.trans (OrderedSet.isPrefix_insert _ x) }

theorem addObj (h : c.Extends c₁) (o : Obj) (ty : Ty) : c.Extends (c₁.addObj o ty) :=
  { h with objs := h.objs.trans (Table.isPrefix_insert _ o ty) }

theorem addPointer (h : c.Extends c₁) (p : Pointer) : c.Extends (c₁.addPointer p) := by
  have hheap : c₁.analysis.heap.objs.entries <+: (c₁.addPointer p).analysis.heap.objs.entries ∧
      c₁.analysis.heap.pointers.keys <+: (c₁.addPointer p).analysis.heap.pointers.keys := by
    simp only [Core.addPointer, Heap.addPointer]
    split
    · exact ⟨List.prefix_refl _, List.prefix_refl _⟩
    · exact ⟨List.prefix_refl _, (Table.isPrefix_insert _ p ∅).map Prod.fst⟩
  have hpoints : ∀ p', (c₁.addPointer p).pointsTo p' = c₁.pointsTo p' :=
    c₁.analysis.heap.pointsTo_addPointer p
  exact { h with
    objs := h.objs.trans hheap.1
    pointers := h.pointers.trans hheap.2
    pointsTo := fun p' o ho => hpoints p' ▸ h.pointsTo p' o ho }

theorem extend (h : c.Extends c₁) (p : Pointer) (os : PointsToSet) :
    c.Extends (c₁.extend p os) := by
  have hkeys : (c₁.extend p os).analysis.heap.pointers.keys = c₁.analysis.heap.pointers.keys :=
    Table.keys_modify _ _ _
  exact { h with
    pointers := hkeys ▸ h.pointers
    pointsTo := fun p' o ho => Heap.mem_pointsTo_extend.2 (.inl (h.pointsTo p' o ho)) }

theorem modifyCalls {f : CallGraph CtxSite CtxMethod → CallGraph CtxSite CtxMethod}
    (h : c.Extends c₁) (hmethods : ∀ g, g.methods.toList <+: (f g).methods.toList)
    (hcalls : ∀ g, g.calls <+: (f g).calls) : c.Extends (c₁.modifyCalls f) :=
  { h with methods := h.methods.trans (hmethods _), calls := h.calls.trans (hcalls _) }

theorem addMethod (h : c.Extends c₁) (m : CtxMethod) :
    c.Extends (c₁.modifyCalls (·.addMethod m)) := by
  refine h.modifyCalls (fun g => ?_) fun _ => List.prefix_refl _
  rw [CallGraph.methods_addMethod]
  exact g.methods.isPrefix_insert m

theorem addEntry (h : c.Extends c₁) (m : CtxMethod) :
    c.Extends (c₁.modifyCalls (·.addEntry m)) := by
  refine h.modifyCalls (fun g => ?_) fun _ => List.prefix_refl _
  rw [CallGraph.methods_addEntry]
  exact g.methods.isPrefix_insert m

theorem addSite (h : c.Extends c₁) (m : CtxMethod) (s : CtxSite) :
    c.Extends (c₁.modifyCalls (·.addSite m s)) :=
  h.modifyCalls (fun _ => List.prefix_refl _) fun _ => List.prefix_refl _

theorem addEdge (h : c.Extends c₁) (m : CtxMethod) (e : CtxEdge) :
    c.Extends (c₁.modifyCalls (·.addEdge m e)) := by
  refine h.modifyCalls (fun g => ?_) fun g => ?_
  · cases hnew : g.hasEdge e.site e.callee with
    | true =>
      have hsame : g.addEdge m e = g := CallGraph.addEdge_of_hasEdge hnew
      exact hsame.symm ▸ List.prefix_refl _
    | false =>
      rw [CallGraph.methods_addEdge hnew]
      exact (g.methods.isPrefix_insert m).trans (OrderedSet.isPrefix_insert _ e.callee)
  · unfold CallGraph.addEdge
    split
    · exact List.prefix_refl _
    · exact List.prefix_append _ _

theorem link (h : c.Extends c₁) (a b : Pointer) : c.Extends (c₁.link a b) := by
  have hpointers := (h.addPointer a).addPointer b
  simp only [Core.link]
  split
  · exact hpointers
  · have hflow : c.Extends { (c₁.addPointer a).addPointer b with
        flow := ((c₁.addPointer a).addPointer b).flow.addEdge a b } :=
      { hpointers with
        flow := fun x y hxy => FlowGraph.hasEdge_addEdge.2 (.inl (hpointers.flow x y hxy)) }
    split
    · exact hflow
    · exact hflow.push _

/-! ### Tasks -/

theorem lowering (h : c.Extends c₁) (m : MethodId) {k : Core → Outcome}
    (hk : ∀ c₂, c.Extends c₂ → c.Extends (k c₂).1) : c.Extends (c₁.lowering m k).1 := by
  have hlower : c.Extends (c₁.lower m).2 := h.withElements (.serve .refl (.lower m))
  unfold Core.lowering
  split <;> rename_i heq <;> rw [heq] at hlower
  · exact hk _ hlower
  · exact hlower

theorem watch (h : c.Extends c₁) (m : CtxMethod) (base : VarId) (s : StmtId) (injected : Bool) :
    c.Extends (c₁.watch m base s injected).1 := by
  have hpointer := h.addPointer (.var m.ctx base)
  simp only [Core.watch]
  split <;> split
  · exact hpointer.of_eq rfl rfl
  · exact hpointer.of_eq rfl rfl
  · exact hpointer
  · exact hpointer

theorem call (h : c.Extends c₁) (m : CtxMethod) (kind : CallKind) (s : CtxSite)
    (receiver : Option Obj) (callee : MethodId) : c.Extends (c₁.call m kind s receiver callee) :=
  (h.useContext _).push _

theorem execCall (h : c.Extends c₁) (m : CtxMethod) (s : StmtId) (id : SiteId) (injected : Bool) :
    c.Extends (c₁.execCall m s id injected).1 := by
  have hsite := h.addSite m ⟨m.ctx, id⟩
  simp only [Core.execCall]
  split
  · exact hsite.call _ _ _ _ _
  · exact hsite.call _ _ _ _ _
  · exact hsite.watch _ _ _ _
  · exact hsite.watch _ _ _ _
  · exact hsite
  · exact hsite
  · exact hsite.tell _ _

theorem exec (h : c.Extends c₁) (m : CtxMethod) (s : StmtId) (injected : Bool) :
    c.Extends (c₁.exec m s injected).1 := by
  unfold Core.exec
  split
  · exact h
  · exact (((h.useContext _).addObj _ _).addPointer _).push _
  · exact h.link _ _
  · exact h.watch _ _ _ _
  · exact h.watch _ _ _ _
  · exact h.execCall _ _ _ _

theorem react (h : c.Extends c₁) (m : CtxMethod) (s : StmtId) (os : PointsToSet) :
    c.Extends (c₁.react m s os).1 := by
  unfold Core.react
  split
  · exact (h.addPointer _).foldl (fun _ h o => h.link _ _) _
  · exact (h.addPointer _).foldl (fun _ h o => h.link _ _) _
  · split <;> exact h
  · exact h
  · exact h
  · exact h

theorem dispatch (h : c.Extends c₁) (m : CtxMethod) (s : CtxSite) (o : Obj) :
    c.Extends (c₁.dispatch m s o).1 := by
  have hfound : c.Extends (c₁.withElements (c₁.elements.dispatch (c₁.analysis.heap.typeOf o)
      (c₁.program.subsignature (c₁.elements.site s.site).target)).2) :=
    h.withElements (.serve .refl (.dispatch _ _))
  simp only [Core.dispatch]
  split
  · exact hfound
  · split
    · exact hfound.call _ _ _ _ _
    · refine (hfound.call _ _ _ _ _).lowering _ fun c₂ h₂ => ?_
      split
      · exact h₂
      · exact (h₂.addPointer _).push _

theorem reach (h : c.Extends c₁) (m : CtxMethod) : c.Extends (c₁.reach m).1 := by
  simp only [Core.reach]
  split
  · exact h
  · split
    · exact (h.addMethod m).tell _ _
    · refine (h.addMethod m).lowering _ fun c₂ h₂ => ?_
      split
      · exact h₂
      · refine Extends.tell ?_ _ _
        exact h₂.of_eq rfl rfl

theorem takeObjects (h : c.Extends c₁) (p : Pointer) (os : PointsToSet) :
    c.Extends (c₁.takeObjects p os).1 := by
  simp only [Core.takeObjects]
  split
  · exact h
  · split
    · exact (h.extend _ os).foldl (fun _ h q => h.push _) _
    · exact ((h.extend _ os).foldl (fun _ h q => h.push _) _).tell _ _

theorem next (h : c.Extends c₁) : c.Extends c₁.next.1 := by
  unfold Core.next
  split
  · exact h
  · rename_i i rest _
    have hrest : c.Extends { c₁ with worklist := rest, iterations := c₁.iterations + 1 } :=
      h.of_eq rfl rfl
    cases i with
    | objects p os => exact hrest.takeObjects p os
    | edge m e =>
      simp only [takeEdge]
      split <;> exact hrest

theorem bindArgs (h : c.Extends c₁) (caller callee : Context) (args params : List (Option VarId)) :
    c.Extends (c₁.bindArgs caller callee args params) := by
  refine h.foldl (fun c₂ h₂ x => ?_) _
  split
  · exact h₂.link _ _
  · exact h₂

theorem bindResult (h : c.Extends c₁) (caller callee : Context) (returns : List VarId)
    (result : Option VarId) : c.Extends (c₁.bindResult caller callee returns result) := by
  unfold Core.bindResult
  split
  · exact h
  · exact (h.addPointer _).foldl (fun _ h r => h.link _ _) _

theorem bind (h : c.Extends c₁) (e : CtxEdge) : c.Extends (c₁.bind e).1 := by
  simp only [Core.bind]
  split
  · exact h
  · refine h.lowering _ fun c₂ h₂ => ?_
    split
    · exact ((h₂.bindArgs _ _ _ _).bindResult _ _ _ _).link _ _
    · exact (h₂.bindArgs _ _ _ _).bindResult _ _ _ _

theorem statistics (h : c.Extends c₁) : c.Extends c₁.statistics := by
  unfold Core.statistics
  repeat refine Extends.tell ?_ _ _
  exact h

end Extends

/-- A task extends the state, also when it fails. -/
theorem perform_extends (c : Core) (t : Task) : c.Extends (c.perform t).1 := by
  have h := Extends.refl c
  cases t with
  | begin =>
    simp only [perform, begin]
    split
    · exact h
    · exact h.of_eq rfl rfl
  | reach m => exact h.reach m
  | enter m => exact h.addEntry m
  | exec m s injected => exact h.exec m s injected
  | react m s os => exact h.react m s os
  | dispatch m s o => exact h.dispatch m s o
  | wake | announce => exact h
  | next => exact h.next
  | drain =>
    simp only [perform, drain]
    split <;> exact h
  | record m e => exact (h.addEdge m e).tell _ _
  | bind e => exact h.bind e
  | statistics => exact h.statistics

end Core

namespace Solver

variable {P : Plugin}

/-- Plugins can do no more to what was found than work on the element tables. -/
theorem announce_extends (s : Solver P) (e : Event) : s.core.Extends (s.announce e).1.core := by
  let stage : Stage :=
    { analysis := s.core.analysis, ignored := s.core.ignored, journal := s.core.journal }
  have hrun : ((P.react e s.memory).run stage).2.analysis = { s.core.analysis with
      elements := ((P.react e s.memory).run stage).2.analysis.elements } :=
    Hook.run_analysis (P.react e s.memory) stage
  have hextends := (Core.Extends.refl s.core).withElements
    (Hook.run_develops (P.react e s.memory) stage)
  exact hextends.of_eq hrun rfl

theorem perform_extends (s : Solver P) (t : Task) : s.core.Extends (s.perform t).1.core := by
  cases t with
  | announce e => exact s.announce_extends e
  | _ => exact s.core.perform_extends _

/-- An agenda extends the state, whether all of it is done or not. -/
theorem settle_extends (s : Solver P) (fuel : Nat) (agenda : List Task) :
    s.core.Extends (s.settle fuel agenda).1.core := by
  induction fuel generalizing s agenda with
  | zero => cases agenda <;> exact .refl _
  | succ fuel ih =>
    cases agenda with
    | nil => exact .refl _
    | cons t rest =>
      have hperform := s.perform_extends t
      unfold settle
      split <;> rename_i heq <;> rw [heq] at hperform
      · exact hperform.trans (ih _ _)
      · exact hperform

/-- **Everything only grows.** A step from any state, with any plugins, extends the state, whether
it ends well, fails or is cut short. -/
theorem step_extends (s : Solver P) (fuel : Nat) : s.core.Extends (s.step fuel).1.core := by
  have hstart := s.settle_extends fuel [.begin]
  unfold step start
  split <;> rename_i s₁ heq <;> rw [heq] at hstart
  · have hnext := s₁.settle_extends fuel [.next]
    simp only
    split <;> rename_i heq' <;> rw [heq'] at hnext <;> exact hstart.trans hnext
  · exact hstart
  · exact hstart

end Solver

end PointsTo
