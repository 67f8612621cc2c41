import PointsTo.Proofs.CallGraph.Reachability
import PointsTo.Proofs.Solver.Footprint

/-!
# Translation on demand

The body of a method is lowered when the run first needs it, and the tables get to know the methods
that lowered bodies name. Without plugins this is exact: the methods that are lowered are those that
become reachable, each of them once, and no other method gets into the tables than entries, targets
of call sites, and callees found for objects that have arrived.

A callee can be lowered, for the sake of its receiver, before the call edge that makes it reachable
is taken up. So while a run is underway, a method that was lowered is reachable or has a promised
call edge lead to it.

* `Analysis.Mentions`: why a method can be in the tables;
* `Core.Sourced`: what was lowered, entered or put on the worklist has its reason, and the objects
  that tasks are about have arrived;
* `Core.Sourced.perform`: every task keeps this so;
* `Solver.translations`: the methods whose bodies are translated in a run, in order;
* `Solver.solve_translates`: at the end these are the reachable methods.
-/

namespace PointsTo

namespace Elements

variable {e : Elements} {m k : MethodId}

/-! ### Methods in the tables -/

theorem mem_keys_addMethod_iff :
    k ∈ (e.addMethod m).methods.keys ↔ k ∈ e.methods.keys ∨ k = m := by
  unfold addMethod
  split <;> rename_i h
  · rw [Table.contains_iff] at h
    exact ⟨.inl, fun hk => hk.elim id fun hk => hk ▸ h⟩
  · exact Table.mem_keys_insert

theorem mem_keys_mention {x : Mention} :
    k ∈ (e.mention x).methods.keys ↔ k ∈ e.methods.keys ∨ .method k = x := by
  cases x with
  | type t => simp [mention, addType]
  | method m => simp [mention, mem_keys_addMethod_iff]
  | field f =>
    simp only [mention, addField]
    split <;> simp [addType]

theorem mem_keys_foldl_mention {l : List Mention} :
    k ∈ (l.foldl mention e).methods.keys ↔ k ∈ e.methods.keys ∨ .method k ∈ l := by
  induction l generalizing e with
  | nil => simp
  | cons x l ih => rw [List.foldl_cons, ih, mem_keys_mention, List.mem_cons, or_assoc]

/-- Lowering enters the method and what its code mentions. -/
theorem mem_keys_lower (h : e.Faithful) (hk : k ∈ (e.lower m).2.methods.keys) :
    k ∈ e.methods.keys ∨ k = m ∨
      ¬ e.isBuilt m = true ∧ .method k ∈ (e.program.lowering m).2.mentions := by
  unfold lower at hk
  simp only [isBuilt_addMethod] at hk
  split at hk <;> rename_i hm
  · rw [mem_keys_addMethod_iff] at hk
    exact hk.imp id .inl
  · let d := ((Lower.method (e.opened m).program m).run
      { code := ((e.opened m).addMethod m).code m }).2
    replace hk : k ∈ ((d.mentions.foldl mention ((e.opened m).addMethod m)).methods.modify m
      fun _ => d.code).keys := hk
    rw [Table.keys_modify, mem_keys_foldl_mention, mem_keys_addMethod_iff, opened, modifyCode,
      Table.keys_modify, mem_keys_addMethod_iff] at hk
    rcases hk with ((hk | hk) | hk) | hk
    · exact .inl hk
    · exact .inr (.inl hk)
    · exact .inr (.inl hk)
    · refine .inr (.inr ⟨hm, ?_⟩)
      rwa [← run_opened_of_faithful h hm]

/-- Looking for a callee enters the one that is found. -/
theorem mem_keys_dispatch {t : Ty} {sub : String} (hk : k ∈ (e.dispatch t sub).2.methods.keys) :
    k ∈ e.methods.keys ∨ (e.dispatch t sub).1 = some k := by
  unfold dispatch at hk ⊢
  simp only at hk ⊢
  cases hf : (e.addType t).dispatched.find? (t, sub) with
  | some a =>
    rw [hf] at hk
    exact .inl hk
  | none =>
    simp only [hf] at hk ⊢
    cases hd : (e.addType t).program.dispatch? t sub with
    | none =>
      rw [hd] at hk
      exact .inl hk
    | some m =>
      rw [hd] at hk
      exact (mem_keys_addMethod_iff.1 hk).imp id fun h => congrArg some h.symm

theorem mem_keys_fresh {p : Program} {ms : List MethodId} (hk : k ∈ (fresh p ms).methods.keys) :
    k ∈ ms := by
  suffices h : ∀ e : Elements, k ∈ (ms.foldl addMethod e).methods.keys →
      k ∈ e.methods.keys ∨ k ∈ ms from (h { program := p } hk).resolve_left List.not_mem_nil
  clear hk
  induction ms with
  | nil => exact fun e => .inl
  | cons m ms ih =>
    intro e hk
    rcases ih _ hk with hk | hk
    · rcases mem_keys_addMethod_iff.1 hk with hk | rfl
      · exact .inl hk
      · exact .inr List.mem_cons_self
    · exact .inr (List.mem_cons_of_mem m hk)

end Elements

/-- Why a method is in the tables: it is an entry, or code that was lowered has a call site with
this target, or a dispatched call there finds it for an object that its receiver can refer to. -/
inductive Analysis.Mentions (q : Problem) (a : Analysis) (m : MethodId) : Prop
  | entry (h : m ∈ q.entries)
  | target {id : SiteId} {t : CallSite} (hb : a.elements.isBuilt id.method = true)
      (ht : a.elements.site? id = some t) (h : t.target = m)
  | dispatch {id : SiteId} {t : CallSite} {ctx : Context} {r : VarId} {o : Obj}
      (hb : a.elements.isBuilt id.method = true) (ht : a.elements.site? id = some t)
      (hk : t.kind.isDispatched = true) (hr : t.receiver = some r)
      (ho : o ∈ a.heap.pointsTo (.var ctx r))
      (h : q.program.dispatch? (a.heap.typeOf o) (q.program.subsignature t.target) = some m)

/-- The objects that the task is about have arrived, and the method that it is about is in the
tables for a reason. -/
def Task.Sourced (q : Problem) (c : Core) : Task → Prop
  | .reach m => c.analysis.Mentions q m.method
  | .react m s os => ∃ v, q.program.base? s = some v ∧
      ∀ o ∈ os, c.Holds (.points (.var m.ctx v) o)
  | .dispatch m site o => ∃ r, (q.program.site site.site).receiver = some r ∧
      c.Holds (.points (.var m.ctx r) o)
  | .wake ctx v delta => ∀ o ∈ delta, c.Holds (.points (.var ctx v) o)
  | .record _ e => c.analysis.Mentions q e.callee.method
  | .bind e => c.analysis.Mentions q e.callee.method ∧ c.Reaches e.callee
  | .begin | .enter _ | .exec _ _ _ | .next | .drain | .announce _ | .statistics => True

theorem Task.Sourced.mono {q : Problem} {c c' : Core} {t : Task}
    (hmentions : ∀ m, c.analysis.Mentions q m → c'.analysis.Mentions q m)
    (hh : ∀ f, c.Holds f → c'.Holds f) (h : t.Sourced q c) : t.Sourced q c' := by
  cases t with
  | reach x => exact hmentions _ h
  | react x s os => exact h.imp fun v hv => ⟨hv.1, fun o ho => hh _ (hv.2 o ho)⟩
  | dispatch x site o => exact h.imp fun r hr => ⟨hr.1, hh _ hr.2⟩
  | wake ctx v delta => exact fun o ho => hh _ (h o ho)
  | record x e => exact hmentions _ h
  | bind e => exact ⟨hmentions _ h.1, hh _ h.2⟩
  | begin | enter | exec | next | drain | announce | statistics => trivial

namespace Core

variable {q : Problem} {c c' : Core} {t : Task} {ts rest tasks : List Task} {m k : MethodId}

/-! ### What a task does to the tables -/

theorem faithful_elementsBefore (hc : c.Tidy q) (t : Task) : (c.elementsBefore t).Faithful := by
  cases t with
  | dispatch x s o => exact hc.faithful.dispatch _ _
  | _ => exact hc.faithful

theorem program_elementsBefore (hc : c.Tidy q) (t : Task) :
    (c.elementsBefore t).program = q.program := by
  cases t with
  | dispatch x s o =>
    exact (Elements.dispatch_spec hc.faithful.memo_eq _ _).2.1.trans hc.program_eq
  | _ => exact hc.program_eq

theorem isBuilt_elementsBefore (hc : c.Tidy q) (t : Task) (m : MethodId) :
    (c.elementsBefore t).isBuilt m = c.elements.isBuilt m := by
  cases t with
  | dispatch x s o => exact Elements.isBuilt_dispatch hc.faithful _ _ m
  | _ => rfl

/-- After a task those methods were lowered that were so before, and the one that it has lowered. -/
theorem isBuilt_perform (hc : c.Tidy q) (t : Task) (m : MethodId) :
    (c.perform t).1.IsBuilt m ↔ c.IsBuilt m ∨ c.lowered? t = some m := by
  rw [IsBuilt, perform_elements (·.isBuilt m) (fun _ => rfl), elementsAfter]
  cases c.lowered? t with
  | none => simp [isBuilt_elementsBefore hc, IsBuilt]
  | some x =>
    rw [Elements.isBuilt_lower (faithful_elementsBefore hc t), isBuilt_elementsBefore hc, IsBuilt,
      Option.some.injEq, or_comm, @eq_comm _ x]

/-- After a task those methods are in the tables that were so before, the callee that it has found,
the method that it has lowered, and what the code of this method mentions. -/
theorem mem_keys_perform (hc : c.Tidy q) (hk : k ∈ (c.perform t).1.elements.methods.keys) :
    k ∈ c.elements.methods.keys ∨
      (∃ x s o, t = .dispatch x s o ∧ (c.found s o).1 = some k) ∨
      ∃ m, c.lowered? t = some m ∧
        (k = m ∨ ¬ c.IsBuilt m ∧ .method k ∈ (q.program.lowering m).2.mentions) := by
  rw [perform_elements (·.methods.keys) (fun _ => rfl), elementsAfter] at hk
  have hbefore : k ∈ (c.elementsBefore t).methods.keys →
      k ∈ c.elements.methods.keys ∨ ∃ x s o, t = .dispatch x s o ∧ (c.found s o).1 = some k := by
    intro hk
    cases t with
    | dispatch x s o => exact (Elements.mem_keys_dispatch hk).imp id fun h => ⟨x, s, o, rfl, h⟩
    | _ => exact .inl hk
  cases hl : c.lowered? t with
  | none =>
    rw [hl] at hk
    exact (hbefore hk).imp id .inl
  | some m =>
    rw [hl] at hk
    rcases Elements.mem_keys_lower (faithful_elementsBefore hc t) hk with hk | hk | ⟨hm, hk⟩
    · exact (hbefore hk).imp id .inl
    · exact .inr (.inr ⟨m, rfl, .inl hk⟩)
    · rw [isBuilt_elementsBefore hc] at hm
      rw [program_elementsBefore hc] at hk
      exact .inr (.inr ⟨m, rfl, .inr ⟨hm, hk⟩⟩)

/-- The callee that is found on an object. -/
theorem found_eq (hc : c.Tidy q) {s : CtxSite} {o : Obj} (hs : c.IsBuilt s.site.method) :
    (c.found s o).1 = q.program.dispatch? (c.analysis.heap.typeOf o)
      (q.program.subsignature (q.program.site s.site).target) := by
  rw [← hc.site_eq hs, ← hc.program_eq]
  exact (Elements.dispatch_spec hc.faithful.memo_eq _ _).1

/-! ### Reasons -/

/-- The call site of a call, in the tables. -/
theorem Tidy.site?_of_call (hc : c.Tidy q) {s : StmtId} {id : SiteId} {lhs : Option VarId}
    (hs : q.program.stmt? s = some (.call id lhs)) (hb : c.IsBuilt id.method) :
    c.elements.site? id = some (q.program.site id) := by
  obtain ⟨hm, -, t, ht, -⟩ := Program.fits_of_stmt? hs
  have hsite : c.elements.site? id = some t := by
    rw [Elements.site?, hc.code_eq hb, hm]
    exact ht
  rw [hsite, ← hc.site_eq hb, Elements.site_of_site? hsite]

/-- A reason stays one: lowered code does not change, objects do not leave, and keep their type. -/
theorem mentions_mono (hc : c.Grounded q) (hc' : c'.Grounded q)
    (hb : ∀ m, c.IsBuilt m → c'.IsBuilt m) (hh : ∀ f, c.Holds f → c'.Holds f)
    (h : c.analysis.Mentions q m) : c'.analysis.Mentions q m := by
  have hsite : ∀ id : SiteId, c.IsBuilt id.method → c'.elements.site? id = c.elements.site? id := by
    intro id hid
    rw [Elements.site?, Elements.site?, hc'.tidy.code_eq (hb _ hid), hc.tidy.code_eq hid]
  cases h with
  | entry h => exact .entry h
  | @target id t hid ht h => exact .target (hb _ hid) ((hsite id hid).trans ht) h
  | @dispatch id t ctx r o hid ht hk hr ho h =>
    have ho' := hh (.points (.var ctx r) o) ho
    have hty := hc.tidy.typeOf_eq (hc.knows (.points (.var ctx r) o) (.inl ho)).2
    have hty' := hc'.tidy.typeOf_eq (hc'.knows (.points (.var ctx r) o) (.inl ho')).2
    have heq := Option.some.inj (hty'.symm.trans hty)
    exact .dispatch (hb _ hid) ((hsite id hid).trans ht) hk hr ho' (heq ▸ h)

/-- A callee that is found on an object which has arrived. -/
theorem mentions_of_found (hc : c.Grounded q) {x : CtxMethod} {site : CtxSite} {o : Obj}
    (hj : (Task.dispatch x site o).Justified q c) (hs : (Task.dispatch x site o).Sourced q c)
    (hfound : (c.found site o).1 = some m) : c.analysis.Mentions q m := by
  obtain ⟨-, hb, -, s, lhs, hst, hk, ha, -⟩ := hj
  obtain ⟨r, hr, ho⟩ := hs
  have hid := ha.isBuilt_site hst hb
  rw [found_eq hc.tidy hid] at hfound
  exact .dispatch hid (hc.tidy.site?_of_call hst hid) hk hr ho hfound

/-- The method that a task has lowered. -/
theorem mentions_of_lowered (hc : c.Grounded q) (hj : t.Justified q c) (hs : t.Sourced q c)
    (hl : c.lowered? t = some m) : c.analysis.Mentions q m := by
  have hfilter := (Option.filter_eq_some_iff.1 hl).1
  cases t with
  | reach x =>
    simp only at hfilter
    split at hfilter <;> cases hfilter
    exact hs
  | dispatch x site o => exact mentions_of_found hc hj hs hfilter
  | bind e =>
    cases hfilter
    exact hs.1
  | _ => cases hfilter

/-- The objects that the statements of a variable are applied to have arrived there. -/
theorem holds_of_wake (hc : c.Grounded q) {ctx : Context} {v : VarId} {delta : PointsToSet}
    {o : Obj} (hok : c.next = (c', .ok ts)) (hw : .wake ctx v delta ∈ ts) (ho : o ∈ delta) :
    c'.Holds (.points (.var ctx v) o) := by
  rcases next_spec c with ⟨-, heq⟩ | ⟨l₁, i, l₂, hitems, -, ⟨p, os, rfl, heq⟩ | ⟨x, e, rfl, heq⟩⟩
  · cases hok.symm.trans heq
    cases hw
  · have hp : ∀ o ∈ os, p ∈ c.analysis.heap.pointers.keys := fun o ho =>
      (hc.knows (.points p o) (.inr ⟨_, by simp [hitems], .points ho⟩)).1.1
    rcases takeObjects_spec (c := c.remain (l₁ ++ l₂)) hp with
      ⟨-, heq'⟩ | ⟨c₁, ts₁, heq', -, -, -, hholds, -, -, hts⟩
    · cases hok.symm.trans (heq.trans heq')
      cases hw
    · cases hok.symm.trans (heq.trans heq')
      rcases hts _ hw with ⟨e, ⟨⟩⟩ | ⟨_, _, rfl, ⟨⟩⟩
      exact (hholds _).2 (.inr ⟨o, (OrderedSet.mem_diff.1 ho).1, rfl⟩)
  · rcases takeEdge_spec (c.remain (l₁ ++ l₂)) x e with ⟨-, heq'⟩ | ⟨-, heq'⟩
    · cases hok.symm.trans (heq.trans heq')
      cases hw
    · cases hok.symm.trans (heq.trans heq')
      simp at hw

/-- What was lowered, entered or put on the worklist has its reason. -/
structure Sourced (q : Problem) (c : Core) (tasks : List Task) : Prop where
  methods : ∀ m ∈ c.elements.methods.keys, c.analysis.Mentions q m
  edges : ∀ x e, c.Due (.edge x e) → c.analysis.Mentions q e.callee.method
  built : ∀ m, c.IsBuilt m → ∃ x, x.method = m ∧
    (c.Reaches x ∨ ∃ y e, c.Promises tasks (.edge y e) ∧ e.callee = x)
  tasks : ∀ t ∈ tasks, t.Sourced q c

namespace Sourced

section

variable (h : Sourced q c (t :: rest)) (hc : c.Underway q (t :: rest))
  (hok : c.perform t = (c', .ok ts))

include hc hok in
theorem mentions_perform (hm : c.analysis.Mentions q m) : c'.analysis.Mentions q m := by
  have hadv := perform_advances hc.grounded (hc.justified t List.mem_cons_self) hok
  exact mentions_mono hc.grounded (hc.perform hok).grounded hadv.built hadv.holds hm

include h hc hok

theorem methods_perform (hk : k ∈ c'.elements.methods.keys) : c'.analysis.Mentions q k := by
  have hj := hc.justified t List.mem_cons_self
  have hs := h.tasks t List.mem_cons_self
  have hc' := hc.perform hok
  obtain rfl : (c.perform t).1 = c' := congrArg Prod.fst hok
  rcases mem_keys_perform hc.grounded.tidy hk with hk | ⟨x, s, o, rfl, hfound⟩ | ⟨m, hl, hk⟩
  · exact mentions_perform hc hok (h.methods k hk)
  · exact mentions_perform hc hok (mentions_of_found hc.grounded hj hs hfound)
  · rcases hk with rfl | ⟨-, hk⟩
    · exact mentions_perform hc hok (mentions_of_lowered hc.grounded hj hs hl)
    · -- the code of the method that was lowered has a call site with this target
      have hb := (isBuilt_perform hc.grounded.tidy t m).2 (.inr hl)
      obtain ⟨site, hsite, htarget⟩ := Program.target_of_mention (hc'.complete.lowered m hb) hk
      obtain ⟨i, hi⟩ := List.mem_iff_getElem?.1 hsite
      rw [← hc'.grounded.tidy.code_eq hb] at hi
      have hid : (c.perform t).1.elements.site? ⟨m, i⟩ = some site := hi
      refine .target ?_ hid htarget
      exact hb

theorem edges_perform {x : CtxMethod} {e : CtxEdge} (he : c'.Due (.edge x e)) :
    c'.analysis.Mentions q e.callee.method := by
  have hj := hc.justified t List.mem_cons_self
  have hs := h.tasks t List.mem_cons_self
  obtain rfl : (c.perform t).1 = c' := congrArg Prod.fst hok
  refine mentions_perform hc hok ?_
  rcases due_edge_perform he with he | rfl | ⟨s, b, id, lhs, rfl, hst, rfl⟩ |
    ⟨s, o, callee, rfl, hfound, rfl⟩
  · exact h.edges x e he
  · exact hs
  · obtain ⟨-, -, hb, hbody⟩ := hj
    have hm := (Program.mem_body_iff.1 hbody).1
    replace hst := (hc.grounded.tidy.stmt?_eq (hm ▸ hb)).symm.trans hst
    have hid : c.IsBuilt id.method := by
      rw [(Program.site_of_call hst).1, hm]
      exact hb
    refine .target hid (hc.grounded.tidy.site?_of_call hst hid) ?_
    rw [← hc.grounded.tidy.site_eq hid]
    rfl
  · exact mentions_of_found hc.grounded hj hs hfound

/-- A method is lowered when it becomes reachable, when a call edge to it is bound, or when it is
found for an object, and then a call edge to it is on the worklist. -/
theorem built_perform (hm : c'.IsBuilt m) : ∃ x, x.method = m ∧
    (c'.Reaches x ∨ ∃ y e, c'.Promises (ts ++ rest) (.edge y e) ∧ e.callee = x) := by
  have hj := hc.justified t List.mem_cons_self
  have hs := h.tasks t List.mem_cons_self
  have hadv := perform_advances hc.grounded hj hok
  obtain rfl : (c.perform t).1 = c' := congrArg Prod.fst hok
  rcases (isBuilt_perform hc.grounded.tidy t m).1 hm with hm | hl
  · obtain ⟨x, hx, hx'⟩ := h.built m hm
    refine ⟨x, hx, hx'.imp (hadv.holds (.reach x)) ?_⟩
    rintro ⟨y, e, he, rfl⟩
    exact ⟨y, e, hadv.promises he, rfl⟩
  · have hfilter := (Option.filter_eq_some_iff.1 hl).1
    cases t with
    | reach x =>
      simp only at hfilter
      split at hfilter <;> cases hfilter
      exact ⟨x, rfl, .inl (c.reaches_perform_reach x)⟩
    | dispatch x site o =>
      refine ⟨(c.edgeAt site (some o) m).callee, rfl, .inr ⟨x, _, .inl (.inr ?_), rfl⟩⟩
      refine ⟨_, Worklist.mem_edges.1 ?_, .edge⟩
      simp only [perform_waiting, waitingAfter, hfilter]
      simp
    | bind e =>
      cases hfilter
      exact ⟨e.callee, rfl, .inl (hadv.holds _ hs.2)⟩
    | _ => cases hfilter

/-- What a task calls for is about objects that have arrived, and about callees that are there for a
reason. -/
theorem calls_perform {t' : Task} (ht' : t' ∈ ts) : t'.Sourced q c' := by
  have hj := hc.justified t List.mem_cons_self
  have hs := h.tasks t List.mem_cons_self
  have hadv := perform_advances hc.grounded hj hok
  have hmentions : ∀ {m}, c.analysis.Mentions q m → c'.analysis.Mentions q m :=
    mentions_perform hc hok
  have hcalls : c.CallsFor t t' := perform_callsFor c t ts (by rw [hok]) t' ht'
  cases hcalls with
  | start | list | unresolved => trivial
  | entry hm => exact .entry (hc.grounded.tidy.entries_eq ▸ hm)
  | arrival _ _ ht =>
    rcases mem_arrival ht with rfl | ⟨s, -, rfl⟩ | ⟨s, -, rfl⟩ | rfl <;> trivial
  | apply hst hv =>
    obtain ⟨rfl, -, hb, hbody⟩ := hj
    obtain ⟨ts', hts', -, -, hreacts⟩ := exec_spec hc.grounded.tidy hbody hb
    cases (congrArg Prod.snd hok).symm.trans hts'
    rcases hreacts _ ht' with ⟨e, ⟨⟩⟩ | ⟨v, os, ⟨⟩, hbase, hos⟩
    exact ⟨v, hbase, fun o ho => hadv.holds _ (hos o ho)⟩
  | dispatch hst hk ho =>
    obtain ⟨-, hb, hbody, -⟩ := hj
    obtain ⟨v, hbase, hos⟩ := hs
    have hm := (Program.mem_body_iff.1 hbody).1
    replace hst := (hc.grounded.tidy.stmt?_eq (hm ▸ hb)).symm.trans hst
    exact ⟨v, (Program.base?_call hst).symm.trans hbase, hadv.holds _ (hos _ ho)⟩
  | wake hw =>
    cases (wake_eq hc.grounded.tidy hj.2.1 _ _).symm.trans hok
    obtain ⟨s, hdep, heq⟩ := List.mem_map.1 ht'
    cases heq
    exact ⟨_, (Program.mem_dependents_iff.1 hdep).2, hs⟩
  | objects hi ht =>
    simp only [onward, List.mem_cons, List.not_mem_nil, or_false] at ht
    rcases ht with rfl | rfl
    · trivial
    · exact fun o ho => holds_of_wake hc.grounded hok ht' ho
  | edge hi ht =>
    have he := hmentions (h.edges _ _ (.inr ⟨_, hi, .edge⟩))
    rcases ht with rfl | rfl <;> exact he
  | drain ht => rcases ht with rfl | rfl <;> trivial
  | record ht =>
    rcases ht with rfl | rfl
    · trivial
    · exact ⟨hmentions hs, hadv.holds _ hc.complete.ordered.1⟩

end

/-- Every task keeps everything sourced. -/
theorem perform (h : Sourced q c (t :: rest)) (hc : c.Underway q (t :: rest))
    (hok : c.perform t = (c', .ok ts)) : Sourced q c' (ts ++ rest) where
  methods _ hk := h.methods_perform hc hok hk
  edges _ _ he := h.edges_perform hc hok he
  built _ hm := h.built_perform hc hok hm
  tasks t' ht' := by
    have hadv := perform_advances hc.grounded (hc.justified t List.mem_cons_self) hok
    rcases List.mem_append.1 ht' with ht' | ht'
    · exact h.calls_perform hc hok ht'
    · exact (h.tasks t' (List.mem_cons_of_mem t ht')).mono
        (fun m => mentions_perform hc hok) hadv.holds

end Sourced

/-- At the end of a run, the methods that were lowered are those that are reachable. -/
theorem Sourced.isBuilt_iff (h : Sourced q c []) (hc : c.Underway q []) :
    c.IsBuilt m ↔ m ∈ c.analysis.reachableMethods := by
  rw [Analysis.mem_reachableMethods]
  constructor
  · intro hm
    obtain ⟨x, hx, hreach | ⟨y, e, he, rfl⟩⟩ := h.built m hm
    · exact ⟨x, hreach, hx⟩
    · exact ⟨_, (hc.grounded.tidy.calls.joined _ (he.holds hc.idle)).2, hx⟩
  · rintro ⟨x, hx, rfl⟩
    rcases hc.complete.ran x hx with hran | ⟨e, he⟩
    · exact hran.1
    · -- the caller of an edge is the method of its call site
      have hb : c.IsBuilt e.site.site.method := hc.grounded.knows (.edge x e) (.inl he)
      rw [(hc.grounded.derives (.edge x e) (.inl he)).home.1]
      exact hb

/-! ### Translations -/

/-- The method whose body a task translates: it has it lowered, and that was not done before. -/
def translated? (c : Core) (t : Task) : Option MethodId :=
  (c.lowered? t).filter fun m => !c.elements.isBuilt m

theorem translated?_eq_some : c.translated? t = some m ↔ c.lowered? t = some m ∧ ¬ c.IsBuilt m := by
  simp [translated?, Option.filter_eq_some_iff, IsBuilt]

theorem isBuilt_iff_translated (hc : c.Tidy q) (t : Task) (m : MethodId) :
    (c.perform t).1.IsBuilt m ↔ c.IsBuilt m ∨ c.translated? t = some m := by
  rw [isBuilt_perform hc, translated?_eq_some]
  tauto

end Core

namespace Solver

variable {q : Problem} {s : Solver .idle} {order : WorklistOrder} {fuel : Nat}
  {agenda : List Task}

/-- The methods whose bodies are translated while an agenda is carried out, in order. -/
def translations : Nat → List Task → Solver .idle → List MethodId
  | fuel + 1, t :: rest, s =>
    (s.core.translated? t).toList ++
      match s.perform t with
      | (s', .ok ts) => translations fuel (ts ++ rest) s'
      | (_, .error _) => []
  | _, _, _ => []

/-- The methods of `ms` were lowered between `c` and `c'`, each of them once. -/
structure Lowers (c : Core) (ms : List MethodId) (c' : Core) : Prop where
  nodup : ms.Nodup
  fresh : ∀ m ∈ ms, ¬ c.IsBuilt m
  built : ∀ m, c'.IsBuilt m ↔ c.IsBuilt m ∨ m ∈ ms

theorem lowers_nil (c : Core) : Lowers c [] c :=
  ⟨List.nodup_nil, List.forall_mem_nil _, fun m => by simp⟩

/-- One task, and what follows it. -/
theorem Lowers.cons {c c' : Core} {t : Task} {ms : List MethodId} (hc : c.Tidy q)
    (h : Lowers (c.perform t).1 ms c') : Lowers c ((c.translated? t).toList ++ ms) c' := by
  have hstep := Core.isBuilt_iff_translated hc t
  have hmem : ∀ m, m ∈ (c.translated? t).toList ↔ c.translated? t = some m :=
    fun m => Option.mem_toList
  constructor
  · refine List.nodup_append.2 ⟨?_, h.nodup, ?_⟩
    · cases c.translated? t <;> simp
    · rintro m hm _ hm' rfl
      exact h.fresh m hm' ((hstep m).2 (.inr ((hmem m).1 hm)))
  · intro m hm
    rcases List.mem_append.1 hm with hm | hm
    · exact (Core.translated?_eq_some.1 ((hmem m).1 hm)).2
    · exact fun hb => h.fresh m hm ((hstep m).2 (.inl hb))
  · intro m
    rw [h.built, hstep, List.mem_append, hmem, or_assoc]

/-- No body is translated twice, and the bodies that are translated are those that get lowered. -/
theorem settle_lowers (hc : s.core.Grounded q) (hj : ∀ t ∈ agenda, t.Justified q s.core)
    (fuel : Nat) :
    Lowers s.core (s.translations fuel agenda) (s.settle fuel agenda).1.core := by
  induction fuel generalizing s agenda with
  | zero => cases agenda <;> exact lowers_nil _
  | succ fuel ih =>
    cases agenda with
    | nil => exact lowers_nil _
    | cons t rest =>
      unfold translations settle
      rw [perform_idle]
      cases hr : (s.core.perform t).2 with
      | error e => exact (lowers_nil _).cons hc.tidy
      | ok ts =>
        obtain ⟨hc', hj'⟩ := hc.step hj (Prod.ext rfl hr)
        exact (ih (s := ⟨(s.core.perform t).1, s.memory⟩) hc' hj').cons hc.tidy

end Solver

namespace Analysis

/-- The bodies that were translated, `ms`, are those of the reachable methods, each of them once and
without error, and the tables hold no code but theirs. A method is in the tables for a reason. -/
structure Translates (q : Problem) (a : Analysis) (ms : List MethodId) : Prop where
  built : ∀ m, a.elements.isBuilt m = true ↔ m ∈ a.reachableMethods
  once : ms.Perm a.reachableMethods ∧ ms.Nodup
  code : ∀ m, a.elements.code m = if m ∈ a.reachableMethods then q.program.code m else {}
  lowered : ∀ m ∈ a.reachableMethods, (q.program.lowering m).1 = .ok ()
  methods : ∀ m ∈ a.elements.methods.keys, a.Mentions q m

end Analysis

namespace Solver

variable {q : Problem} {s : Solver .idle} {order : WorklistOrder} {fuel : Nat}

theorem sourced_of_solve (h : (q.solver order).solve fuel = (s, .done ())) :
    s.core.Sourced q [] := by
  have hstart : (q.solver order).core.Sourced q agenda := by
    refine ⟨fun m hm => .entry (Elements.mem_keys_fresh hm), fun x e he => ?_, fun m hm => ?_,
      fun t ht => ?_⟩
    · exact absurd he (q.not_due_solver order _)
    · exact absurd hm (Elements.not_isBuilt_fresh q.program q.entries m)
    · simp only [agenda, List.mem_cons, List.not_mem_nil, or_false] at ht
      rcases ht with rfl | rfl | rfl | rfl | rfl <;> trivial
  have hinv := settle_invariant (s := q.solver order) fuel
    (I := fun c ts => c.Underway q ts ∧ c.Sourced q ts) (E := fun _ => True) ?_
    (fun _ _ _ _ _ _ => trivial) ⟨q.underway_solver order, hstart⟩
  · rw [show (q.solver order).settle fuel agenda = (s, .done ()) from h] at hinv
    exact hinv.2
  · rintro c t rest ts ⟨hc, hsourced⟩ hok
    have hok : c.perform t = ((c.perform t).1, .ok ts) := Prod.ext rfl hok
    exact ⟨hc.perform hok, hsourced.perform hc hok⟩

/-- **Translation on demand is exact.** In every run without plugins that ends without error, with
either order of the worklist, the bodies that are translated are those of the reachable methods,
each of them once. -/
theorem solve_translates (h : (q.solver order).solve fuel = (s, .done ())) :
    s.core.analysis.Translates q ((q.solver order).translations fuel agenda) := by
  have hend := solve_underway h
  have hsourced := sourced_of_solve h
  have hunder := q.underway_solver order
  have hlowers := settle_lowers hunder.grounded hunder.justified fuel
  rw [show (q.solver order).settle fuel agenda = (s, .done ()) from h] at hlowers
  have hbuilt : ∀ m, s.core.IsBuilt m ↔ m ∈ s.core.analysis.reachableMethods :=
    fun m => hsourced.isBuilt_iff hend
  refine ⟨hbuilt, ⟨?_, hlowers.nodup⟩, fun m => ?_, fun m hm => ?_, hsourced.methods⟩
  · refine (List.perm_ext_iff_of_nodup hlowers.nodup (Search.nodup_eraseDups _)).2 fun m => ?_
    refine Iff.trans ?_ (hbuilt m)
    rw [hlowers.built]
    exact (or_iff_right (Elements.not_isBuilt_fresh q.program q.entries m)).symm
  · have hcode : s.core.elements.code m =
        if s.core.elements.isBuilt m then s.core.elements.program.code m else {} :=
      hend.grounded.tidy.faithful.code_eq m
    have hprogram : s.core.elements.program = q.program := hend.grounded.tidy.program_eq
    simp only [hprogram] at hcode
    refine hcode.trans ?_
    simp only [← hbuilt m, Core.IsBuilt]
  · exact hend.complete.lowered m ((hbuilt m).2 hm)

/-- With a stack as worklist, `leave` is lowered before `visit` becomes reachable. -/
theorem solve_translates_visitor :
    (Problem.visitor.solver .lifo).translations 100 agenda = [⟨0⟩, ⟨1⟩, ⟨2⟩] ∧
      ∃ s, (Problem.visitor.solver .lifo).solve 100 = (s, .done ()) ∧
        s.core.analysis.Translates .visitor
          ((Problem.visitor.solver .lifo).translations 100 agenda) := by
  refine ⟨by decide +kernel, ?_⟩
  have hdone : ((Problem.visitor.solver .lifo).solve 100).2 = .done () := by decide +kernel
  generalize hr : (Problem.visitor.solver .lifo).solve 100 = r at hdone
  obtain ⟨s, v⟩ := r
  obtain rfl : v = .done () := hdone
  exact ⟨s, rfl, solve_translates hr⟩

end Solver

end PointsTo
