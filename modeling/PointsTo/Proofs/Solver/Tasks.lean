import Mathlib.Tactic.ByContra
import PointsTo.Proofs.Solver.Facts

/-!
# What tasks add

In a tidy state, each task of the solver adds the facts that a rule gives, and calls for the tasks
that give the rest:

* `Core.exec_spec`, `Core.react_spec`, `Core.dispatch_spec` and `Core.bind_spec`: the effects of a
  statement, its reactions to objects, and what a call edge binds;
* `Core.reach_spec` and `Core.record_spec`: a new method and a new call edge.

The facts are known (`Core.Knows`): their pointers and objects exist, and the methods of their
variables were lowered. Later tasks rely on it.
-/

namespace PointsTo

/-- The item that is taken from a worklist is the oldest one if the order says so. -/
theorem Worklist.pop?_spec (w : Worklist) :
    (w.items = [] ∧ w.pop? = none) ∨
      ∃ l₁ i l₂, w.items = l₁ ++ i :: l₂ ∧ w.pop? = some (i, { w with items := l₁ ++ l₂ }) ∧
        (w.order = .fifo → l₁ = []) := by
  unfold pop?
  cases horder : w.order with
  | fifo =>
    cases hitems : w.items with
    | nil => exact .inl ⟨rfl, rfl⟩
    | cons i l => exact .inr ⟨[], i, l, rfl, rfl, fun _ => rfl⟩
  | lifo =>
    rcases List.eq_nil_or_concat w.items with hitems | ⟨l, i, hitems⟩
    · exact .inl ⟨hitems, by simp [hitems]⟩
    · exact .inr ⟨l, i, [], by simp [hitems], by simp [hitems], nofun⟩

namespace Core

/-- A pointer exists, and the statements that depend on it are known. -/
def Ready (c : Core) (p : Pointer) : Prop :=
  p ∈ c.analysis.heap.pointers.keys ∧ ∀ ctx v, p = .var ctx v → c.IsBuilt v.method

/-- What a fact is about exists. -/
def Knows (c : Core) : Fact → Prop
  | .points p o => c.Ready p ∧ o ∈ c.analysis.heap.objs.keys
  | .flow _ b => c.Ready b
  | .edge _ e => c.IsBuilt e.site.site.method
  | .reach _ | .site _ _ => True

variable {c c₁ c₂ : Core} {q : Problem} {F G : Fact → Prop} {f : Fact}
  {m : CtxMethod} {s : StmtId} {o : Obj}

theorem Keeps.ready (h : c.Keeps c₁) {p : Pointer} (hp : c.Ready p) : c₁.Ready p :=
  ⟨h.pointers p hp.1, fun ctx v hv => h.built _ (hp.2 ctx v hv)⟩

theorem Keeps.knows (h : c.Keeps c₁) (hf : c.Knows f) : c₁.Knows f := by
  cases f with
  | points p o => exact ⟨h.ready hf.1, h.objs o hf.2⟩
  | flow a b => exact h.ready hf
  | edge m e => exact h.built _ hf
  | reach | site => trivial

theorem ready_var {ctx : Context} {v : VarId}
    (hp : Pointer.var ctx v ∈ c.analysis.heap.pointers.keys)
    (hb : c.IsBuilt v.method) : c.Ready (.var ctx v) :=
  ⟨hp, by rintro _ _ ⟨⟩; exact hb⟩

theorem ready_field {o : Obj} {x : FieldId}
    (hp : Pointer.field o x ∈ c.analysis.heap.pointers.keys) :
    c.Ready (.field o x) :=
  ⟨hp, nofun⟩

/-! ### Reading the tables -/

namespace Tidy

theorem code_eq (hc : c.Tidy q) {m : MethodId} (hm : c.IsBuilt m) :
    c.elements.code m = q.program.code m := by
  rw [Elements.code_of_built hc.faithful hm]
  exact congrArg (Program.code · m) hc.program_eq

theorem stmt?_eq (hc : c.Tidy q) (hs : c.IsBuilt s.method) :
    (c.elements.stmt? s).map PlacedStmt.stmt = q.program.stmt? s := by
  rw [Elements.stmt?_eq hc.faithful hs]
  exact congrArg (Program.stmt? · s) hc.program_eq

theorem site_eq (hc : c.Tidy q) {id : SiteId} (hid : c.IsBuilt id.method) :
    c.elements.site id = q.program.site id := by
  rw [Elements.site_eq hc.faithful hid]
  exact congrArg (Program.site · id) hc.program_eq

theorem var_eq (hc : c.Tidy q) {v : VarId} (hv : c.IsBuilt v.method) :
    c.elements.var v = q.program.var v := by
  rw [Elements.var_eq hc.faithful hv]
  exact congrArg (Program.var · v) hc.program_eq

/-- The type of an object that exists is the one of its allocation. -/
theorem typeOf_eq (hc : c.Tidy q) (ho : o ∈ c.analysis.heap.objs.keys) :
    q.program.allocType? o.site = some (c.analysis.heap.typeOf o) := by
  cases hf : c.analysis.heap.objs.find? o with
  | none => exact absurd ho (Table.find?_eq_none_iff.1 hf)
  | some ty => rw [hc.typed o ty hf, Heap.typeOf, Table.get, hf]; rfl

end Tidy

/-! ### Lowering -/

theorem isBuilt_lower (hc : c.Tidy q) (m m' : MethodId) :
    (c.lower m).2.IsBuilt m' ↔ m' = m ∨ c.IsBuilt m' :=
  Elements.isBuilt_lower hc.faithful m m'

/-- The first time, lowering fails or not as the program says; later it succeeds. -/
theorem lower_fst (hc : c.Tidy q) (m : MethodId) :
    (c.lower m).1 = if c.elements.isBuilt m = true then .ok () else (q.program.lowering m).1 := by
  rw [← hc.program_eq]
  exact (Elements.lower_spec hc.faithful m).2.2.1

/-- Lowering keeps the facts, also when it fails. -/
theorem keeps_lower (hc : c.Tidy q) (m : MethodId) : c.Keeps (c.lower m).2 :=
  keeps_withElements (Elements.lower_spec hc.faithful m).1 (fun h => h.lower m)
    fun m' hm => (isBuilt_lower hc m m').2 (.inr hm)

theorem adds_lower (hc : c.Tidy q) {m : MethodId} (h : (c.lower m).1 = .ok ()) :
    Adds (fun _ => False) c (c.lower m).2 := by
  refine adds_nothing (keeps_lower hc m) (fun q' hq' hok m' hm' => ?_) (holds_withElements c _) rfl
  rcases (isBuilt_lower hc m m').1 hm' with rfl | hm'
  · rw [lower_fst hq'] at h
    split at h <;> rename_i hb
    · exact hok m' hb
    · exact h
  · exact hok m' hm'

/-- Lowering a method first: the rest follows in a state in which the method is lowered, or there is
an error. -/
theorem lowering_spec (hc : c.Tidy q) (m : MethodId) (k : Core → Outcome) :
    (Adds (fun _ => False) c (c.lower m).2 ∧ (c.lower m).2.IsBuilt m ∧
        c.lowering m k = k (c.lower m).2) ∨
      ∃ e, (q.program.lowering m).1 = .error e ∧ c.lowering m k = ((c.lower m).2, .error e) := by
  have hfst := lower_fst hc m
  have hbuilt := (isBuilt_lower hc m m).2 (.inl rfl)
  have hadds := adds_lower hc (m := m)
  unfold lowering
  cases hl : c.lower m with
  | mk r c₁ =>
    rw [hl] at hfst hbuilt hadds
    cases r with
    | ok => exact .inl ⟨hadds rfl, hbuilt, rfl⟩
    | error e =>
      refine .inr ⟨e, ?_, rfl⟩
      split at hfst
      · cases hfst
      · exact hfst.symm

/-! ### Statements -/

/-- Waiting for objects changes nothing that matters, and calls for a reaction to those that are
there. -/
theorem watch_spec (c : Core) (m : CtxMethod) (v : VarId) (s : StmtId) :
    ∃ ts, (c.watch m v s false).2 = .ok ts ∧
      Adds (fun _ => False) c (c.watch m v s false).1 ∧
      ∀ t ∈ ts, ∃ os, t = .react m s os ∧ ∀ o ∈ os, c.Holds (.points (.var m.ctx v) o) := by
  have hadds := adds_addPointer c (.var m.ctx v)
  unfold watch
  simp only [Bool.false_eq_true, if_false]
  split
  · exact ⟨[], rfl, hadds, by simp⟩
  · refine ⟨_, rfl, hadds, fun t ht => ⟨_, List.mem_singleton.1 ht, fun o ho => ?_⟩⟩
    exact (hadds.holds_iff_of_isWork (f := .points (.var m.ctx v) o) trivial).1 ho

/-- A call edge is put on the worklist. -/
theorem adds_call (hc : c.Tidy q) (m : CtxMethod) (id : SiteId) (receiver : Option Obj)
    (callee : MethodId) :
    Adds (· = .edge m (q.edgeTo m id receiver callee)) c
      (c.call m (q.program.site id).kind ⟨m.ctx, id⟩ receiver callee) := by
  unfold call
  rw [hc.policy_eq]
  refine ((adds_useContext c _).trans (adds_push _ _)).congr fun f => ?_
  rw [false_or]
  constructor
  · rintro ⟨⟩
    rfl
  · rintro rfl
    exact .edge

/-- An object is put on its way to a pointer. -/
theorem adds_send (c : Core) (p : Pointer) (o : Obj) :
    Adds (· = .points p o) c ((c.addPointer p).push (.objects p (.singleton o))) := by
  refine ((adds_addPointer c p).trans (adds_push _ _)).congr fun f => ?_
  rw [false_or]
  constructor
  · rintro ⟨ho⟩
    rw [OrderedSet.mem_singleton.1 ho]
  · rintro rfl
    exact .points (OrderedSet.mem_singleton.2 rfl)

/-- An object is created and put on its way to a pointer. -/
theorem adds_alloc {ty : Ty} (hty : c.program.allocType? o.site = some ty) (p : Pointer) :
    Adds (· = .points p o) c
      ((((c.useContext o.heap).addObj o ty).addPointer p).push (.objects p (.singleton o))) := by
  have h₁ := (adds_useContext c o.heap).trans (adds_addObj (o := o) hty)
  exact (h₁.trans (adds_send _ p o)).congr fun f => by simp

/-- Running a call records its site; a static or special call goes on the worklist at once. -/
theorem execCall_spec (hc : c.Tidy q) {id : SiteId} {lhs : Option VarId}
    (h : q.program.stmt? s = some (.call id lhs)) (hb : c.IsBuilt id.method) :
    ∃ ts, (c.execCall m s id false).2 = .ok ts ∧
      Adds (q.Effect m s) c (c.execCall m s id false).1 ∧
      ∀ t ∈ ts, (∃ e, t = .announce e) ∨ ∃ v os, t = .react m s os ∧
        q.program.base? s = some v ∧ ∀ o ∈ os, c.Holds (.points (.var m.ctx v) o) := by
  have hsite := adds_addSite c m ⟨m.ctx, id⟩
  set c₁ := c.modifyCalls (·.addSite m ⟨m.ctx, id⟩) with hc₁
  have hcall : (q.program.site id).kind = .static ∨ (q.program.site id).kind = .special →
      Adds (q.Effect m s) c
        (c₁.call m (q.program.site id).kind ⟨m.ctx, id⟩ none (q.program.site id).target) := by
    intro hk
    refine (hsite.trans (adds_call (hsite.keeps.tidy q hc) m id none _)).congr fun f => ?_
    rw [Problem.effect_call_iff h]
    simp [hk]
  have hrest : (q.program.site id).kind ≠ .static → (q.program.site id).kind ≠ .special →
      ∀ {c₂}, Adds (fun _ => False) c₁ c₂ → Adds (q.Effect m s) c c₂ := by
    intro hk₁ hk₂ c₂ h₂
    refine (hsite.trans h₂).congr fun f => ?_
    rw [Problem.effect_call_iff h]
    simp [hk₁, hk₂]
  have hwatch : ∀ r, (q.program.site id).receiver = some r →
      ∃ ts, (c₁.watch m r s false).2 = .ok ts ∧
        Adds (fun _ => False) c₁ (c₁.watch m r s false).1 ∧
        ∀ t ∈ ts, (∃ e, t = .announce e) ∨ ∃ v os, t = .react m s os ∧
          q.program.base? s = some v ∧ ∀ o ∈ os, c.Holds (.points (.var m.ctx v) o) := by
    intro r hr
    obtain ⟨ts, hts, hadds, hreact⟩ := watch_spec c₁ m r s
    refine ⟨ts, hts, hadds, fun t ht => .inr ?_⟩
    obtain ⟨os, rfl, hos⟩ := hreact t ht
    refine ⟨r, os, rfl, (Program.base?_call h).trans hr, fun o ho => ?_⟩
    exact (hsite.holds_iff_of_isWork (f := .points (.var m.ctx r) o) trivial).1 (hos o ho)
  unfold execCall
  rw [hc.site_eq hb]
  simp only [← hc₁]
  split
  case h_1 hk => exact ⟨[], rfl, hcall (.inl hk), by simp⟩
  case h_2 hk => exact ⟨[], rfl, hcall (.inr hk), by simp⟩
  case h_3 hk hr =>
    obtain ⟨ts, hts, hadds, hreact⟩ := hwatch _ hr
    exact ⟨ts, hts, hrest (by simp [hk]) (by simp [hk]) hadds, hreact⟩
  case h_4 hk hr =>
    obtain ⟨ts, hts, hadds, hreact⟩ := hwatch _ hr
    exact ⟨ts, hts, hrest (by simp [hk]) (by simp [hk]) hadds, hreact⟩
  case h_5 hk hr => exact ⟨[], rfl, hrest (by simp [hk]) (by simp [hk]) (adds_refl c₁), by simp⟩
  case h_6 hk hr => exact ⟨[], rfl, hrest (by simp [hk]) (by simp [hk]) (adds_refl c₁), by simp⟩
  case h_7 hk =>
    exact ⟨_, rfl, hrest (by simp [hk]) (by simp [hk]) (adds_tell c₁ _ _),
      fun t ht => .inl ⟨_, List.mem_singleton.1 ht⟩⟩

/-- The effects of a statement, and the tasks that it calls for. -/
theorem exec_spec (hc : c.Tidy q) (hs : s ∈ (q.program.code m.method).body)
    (hb : c.IsBuilt m.method) :
    ∃ ts, (c.exec m s false).2 = .ok ts ∧ Adds (q.Effect m s) c (c.exec m s false).1 ∧
      (∀ f, q.Effect m s f → (c.exec m s false).1.Knows f) ∧
      ∀ t ∈ ts, (∃ e, t = .announce e) ∨ ∃ v os, t = .react m s os ∧
        q.program.base? s = some v ∧ ∀ o ∈ os, c.Holds (.points (.var m.ctx v) o) := by
  obtain ⟨st, hst⟩ := Program.stmt?_isSome_of_mem_body hs
  have hsm : s.method = m.method := (Program.mem_body_iff.1 hs).1
  have hfit := Problem.fits_of_mem_body hs hst
  unfold exec
  rw [hc.stmt?_eq (hsm ▸ hb), hst]
  cases st with
  | alloc lhs ty =>
    have hadds := adds_alloc (c := c) (o := ⟨s, c.policy.heapContext m.ctx⟩)
      (hc.program_eq ▸ Program.allocType?_of_stmt? hst) (.var m.ctx lhs)
    rw [hc.policy_eq] at hadds ⊢
    refine ⟨[], rfl, hadds.congr fun f => (Problem.effect_alloc_iff hst).symm, fun f hf => ?_,
      by simp⟩
    rw [(Problem.effect_alloc_iff hst).1 hf]
    refine ⟨ready_var (Heap.mem_keys_addPointer.2 (.inr rfl)) (hadds.keeps.built _ ?_), ?_⟩
    · exact hfit.1 ▸ hb
    · exact (Heap.objs_addPointer _ _).symm ▸ Table.mem_keys_insert.2 (.inr rfl)
  | assign lhs rhs =>
    have hadds := adds_link c (.var m.ctx rhs) (.var m.ctx lhs)
    refine ⟨[], rfl, hadds.congr fun f => (Problem.effect_assign_iff hst).symm, fun f hf => ?_,
      by simp⟩
    rw [(Problem.effect_assign_iff hst).1 hf]
    exact ready_var (hadds.target _ _ rfl) (hadds.keeps.built _ (hfit.1.1 ▸ hb))
  | load lhs base x =>
    obtain ⟨ts, hts, hadds, hreact⟩ := watch_spec c m base s
    have hnone : ∀ f, ¬ q.Effect m s f := fun f => Problem.not_effect_load hst
    refine ⟨ts, hts, hadds.congr fun f => by simp [hnone], fun f hf => absurd hf (hnone f),
      fun t ht => .inr ?_⟩
    obtain ⟨os, rfl, hos⟩ := hreact t ht
    exact ⟨base, os, rfl, Program.base?_load hst, hos⟩
  | store base x rhs =>
    obtain ⟨ts, hts, hadds, hreact⟩ := watch_spec c m base s
    have hnone : ∀ f, ¬ q.Effect m s f := fun f => Problem.not_effect_store hst
    refine ⟨ts, hts, hadds.congr fun f => by simp [hnone], fun f hf => absurd hf (hnone f),
      fun t ht => .inr ?_⟩
    obtain ⟨os, rfl, hos⟩ := hreact t ht
    exact ⟨base, os, rfl, Program.base?_store hst, hos⟩
  | call id lhs =>
    have hid : c.IsBuilt id.method := hfit.1 ▸ hb
    obtain ⟨ts, hts, hadds, hreact⟩ := execCall_spec (m := m) hc hst hid
    refine ⟨ts, hts, hadds, fun f hf => ?_, hreact⟩
    rcases (Problem.effect_call_iff hst).1 hf with rfl | ⟨-, rfl⟩
    · trivial
    · exact hadds.keeps.built _ hid

/-- A load or a store draws an edge for each object; a dispatched call leaves each object to a task
of its own. -/
theorem react_spec (hc : c.Tidy q) (hs : s ∈ (q.program.code m.method).body)
    (hb : c.IsBuilt m.method) (os : PointsToSet) :
    ((c.react m s os).2 = .ok [] ∧
        Adds (fun f => ∃ o ∈ os, q.Reaction m s o f) c (c.react m s os).1 ∧
        (∀ o f, q.Reaction m s o f → o ∈ os → (c.react m s os).1.Knows f) ∧
        ∀ id lhs, q.program.stmt? s = some (.call id lhs) →
          ¬ (q.program.site id).kind.isDispatched = true) ∨
      ∃ id lhs, q.program.stmt? s = some (.call id lhs) ∧
        (q.program.site id).kind.isDispatched = true ∧
        c.react m s os = (c, .ok (os.toList.map fun o => .dispatch m ⟨m.ctx, id⟩ o)) := by
  obtain ⟨st, hst⟩ := Program.stmt?_isSome_of_mem_body hs
  have hsm : s.method = m.method := (Program.mem_body_iff.1 hs).1
  have hfit := Problem.fits_of_mem_body hs hst
  unfold react
  rw [hc.stmt?_eq (hsm ▸ hb), hst]
  cases st with
  | alloc lhs ty =>
    have hnone : ∀ o f, ¬ q.Reaction m s o f := by
      rintro o f (h | h | ⟨h, -, -⟩) <;> cases hst.symm.trans h
    exact .inl ⟨rfl, (adds_refl c).congr fun f => by simp [hnone],
      fun o f hf => absurd hf (hnone o f), by simp⟩
  | assign lhs rhs =>
    have hnone : ∀ o f, ¬ q.Reaction m s o f := by
      rintro o f (h | h | ⟨h, -, -⟩) <;> cases hst.symm.trans h
    exact .inl ⟨rfl, (adds_refl c).congr fun f => by simp [hnone],
      fun o f hf => absurd hf (hnone o f), by simp⟩
  | load lhs base x =>
    have hadds := (adds_addPointer c (.var m.ctx lhs)).trans
      (adds_foldl_link os.toList (.field · x) (fun _ => .var m.ctx lhs) _)
    refine .inl ⟨rfl, hadds.congr fun f => ?_, fun o f hf ho => ?_, by simp⟩
    · simp [Problem.reaction_load_iff hst]
    · rw [(Problem.reaction_load_iff hst).1 hf]
      exact ready_var (hadds.target _ _ (.inr ⟨o, ho, rfl⟩))
        (hadds.keeps.built _ (hfit.1.1 ▸ hb))
  | store base x rhs =>
    have hadds := (adds_addPointer c (.var m.ctx rhs)).trans
      (adds_foldl_link os.toList (fun _ => .var m.ctx rhs) (.field · x) _)
    refine .inl ⟨rfl, hadds.congr fun f => ?_, fun o f hf ho => ?_, by simp⟩
    · simp [Problem.reaction_store_iff hst]
    · rw [(Problem.reaction_store_iff hst).1 hf]
      exact ready_field (hadds.target _ _ (.inr ⟨o, ho, rfl⟩))
  | call id lhs =>
    simp only [hc.site_eq (hfit.1 ▸ hb : c.IsBuilt id.method)]
    by_cases hk : (q.program.site id).kind.isDispatched = true
    · exact .inr ⟨id, lhs, rfl, hk, by rw [if_pos hk]; rfl⟩
    · have hnone : ∀ o f, ¬ q.Reaction m s o f :=
        fun o f hf => hk ((Problem.reaction_call_iff hst).1 hf).1
      rw [if_neg hk]
      refine .inl ⟨rfl, (adds_refl c).congr fun f => by simp [hnone],
        fun o f hf => absurd hf (hnone o f), ?_⟩
      rintro id' lhs' ⟨⟩
      exact hk

/-- Without injected statements, those of the body react. -/
theorem wake_eq (hc : c.Tidy q) {v : VarId} (hb : c.IsBuilt v.method) (ctx : Context)
    (delta : PointsToSet) :
    c.wake ctx v delta =
      (c, .ok ((q.program.var v).dependents.map fun s => .react ⟨ctx, v.method⟩ s delta)) := by
  have hnone : (∅ : Table Pointer (List StmtId)).get (.var ctx v) = [] :=
    Table.get_of_not_mem List.not_mem_nil
  unfold wake
  simp only [hc.var_eq hb, hc.watchers_eq, hnone, List.append_nil]
  rfl

/-! ### Calls -/

/-- A dispatched call on an object fails if there is no implementation; otherwise the edge goes on
the worklist, and then the object, once the callee is lowered. -/
theorem dispatch_spec (hc : c.Tidy q) {id : SiteId} (hb : c.IsBuilt id.method)
    (ho : o ∈ c.analysis.heap.objs.keys) :
    (q.target? id o = none ∧ Adds (fun _ => False) c (c.dispatch m ⟨m.ctx, id⟩ o).1 ∧
        ∃ e, (c.dispatch m ⟨m.ctx, id⟩ o).2 = .error e) ∨
      ∃ callee c₁, q.target? id o = some callee ∧
        Adds (· = .edge m (q.edgeTo m id (some o) callee)) c c₁ ∧
        ((∃ e, c.dispatch m ⟨m.ctx, id⟩ o = ((c₁.lower callee).2, .error e) ∧
            (q.program.lowering callee).1 = .error e) ∨
          ∃ c₂, c.dispatch m ⟨m.ctx, id⟩ o = (c₂, .ok []) ∧
            Adds (fun f => ∃ this, (q.program.code callee).this = some this ∧
              f = .points (.var (q.policy.calleeContext m.ctx id (some o)) this) o) c₁ c₂ ∧
            ∀ this, (q.program.code callee).this = some this →
              c₂.Ready (.var (q.policy.calleeContext m.ctx id (some o)) this)) := by
  set sub := q.program.subsignature (q.program.site id).target with hsub
  have htarget : q.target? id o = q.program.dispatch? (c.analysis.heap.typeOf o) sub := by
    rw [Problem.target?, hc.typeOf_eq ho]
    rfl
  obtain ⟨hfst, hprogram, -, -⟩ :=
    Elements.dispatch_spec hc.faithful.memo_eq (c.analysis.heap.typeOf o) sub
  have hfound : Adds (fun _ => False) c
      (c.withElements (c.elements.dispatch (c.analysis.heap.typeOf o) sub).2) :=
    adds_withElements hprogram (fun h => h.dispatch _ _) (Elements.isBuilt_dispatch hc.faithful _ _)
  rw [show c.elements.program = q.program from hc.program_eq, ← htarget] at hfst
  unfold dispatch
  simp only [hc.site_eq hb, hc.program_eq, ← hsub]
  rw [hfst]
  cases htgt : q.target? id o with
  | none => exact .inl ⟨rfl, hfound, _, rfl⟩
  | some callee =>
    right
    have hcall := (hfound.trans (adds_call (hfound.keeps.tidy q hc) m id (some o) callee)).congr
      (G := (· = .edge m (q.edgeTo m id (some o) callee))) fun f => by rw [false_or]
    refine ⟨callee, _, rfl, hcall, ?_⟩
    have hc₁ := hcall.keeps.tidy q hc
    simp only [hc₁.ignored_eq, OrderedSet.not_mem_empty, if_false]
    rcases lowering_spec hc₁ callee _ with ⟨hlow, hbuilt, heq⟩ | ⟨e, he, heq⟩
    · right
      rw [heq]
      have hc₂ := hlow.keeps.tidy q hc₁
      simp only [hc₂.code_eq hbuilt, hc₂.policy_eq]
      cases hthis : (q.program.code callee).this with
      | none => exact ⟨_, rfl, hlow.congr fun f => by simp, by simp⟩
      | some this =>
        have hsend := hlow.trans (adds_send _
          (.var (q.policy.calleeContext m.ctx id (some o)) this) o)
        refine ⟨_, rfl, hsend.congr fun f => by simp, ?_⟩
        rintro this' ⟨⟩
        have hm := ((q.program.code_wellFormed callee).this_has this hthis).1
        exact ready_var (Heap.mem_keys_addPointer.2 (.inr rfl)) (hm ▸ hbuilt)
    · rw [heq]
      exact .inl ⟨e, rfl, he⟩

theorem result?_eq (hc : c.Tidy q) {id : SiteId} {lhs : Option VarId}
    (h : q.program.stmt? s = some (.call id lhs)) (hb : c.IsBuilt id.method) :
    c.elements.result? id = lhs := by
  obtain ⟨hm, hcall, -⟩ := Program.site_of_call h
  have hst := hc.stmt?_eq (hm ▸ hb : c.IsBuilt s.method)
  rw [h] at hst
  obtain ⟨st, hst, hst'⟩ := Option.map_eq_some_iff.1 hst
  simp [Elements.result?, hc.site_eq hb, hcall, Elements.stmt, hst, hst']

theorem adds_bindArgs (c : Core) (x y : Context) (args params : List (Option VarId)) :
    Adds (fun f => ∃ a v, (some a, some v) ∈ args.zip params ∧ f = .flow (.var x a) (.var y v)) c
      (c.bindArgs x y args params) := by
  unfold bindArgs
  generalize args.zip params = l
  induction l generalizing c with
  | nil => exact (adds_refl c).congr fun f => by simp
  | cons z l ih =>
    rw [List.foldl_cons]
    match z with
    | (some a, some v) =>
      refine ((adds_link c (.var x a) (.var y v)).trans (ih _)).congr fun f => ?_
      simp [or_and_right, exists_or, and_assoc]
    | (none, _) => exact (ih c).congr fun f => by simp
    | (some a, none) => exact (ih c).congr fun f => by simp

theorem adds_bindResult (c : Core) (x y : Context) (returns : List VarId) (result : Option VarId) :
    Adds (fun f => ∃ r ∈ returns, ∃ lhs, result = some lhs ∧ f = .flow (.var y r) (.var x lhs)) c
      (c.bindResult x y returns result) := by
  unfold bindResult
  cases result with
  | none => exact (adds_refl c).congr fun f => by simp
  | some lhs =>
    exact ((adds_addPointer c _).trans
      (adds_foldl_link returns (.var y ·) (fun _ => .var x lhs) _)).congr fun f => by simp

/-- What a call edge binds is known when the methods of its call site and of its callee are. -/
theorem knows_binding {e : CtxEdge}
    (htarget : ∀ a b, q.Binding e (.flow a b) → b ∈ c.analysis.heap.pointers.keys)
    (hcallee : c.IsBuilt e.callee.method) (hsite : c.IsBuilt e.site.site.method) :
    ∀ f, q.Binding e f → c.Knows f := by
  have hcode := q.program.code_wellFormed e.callee.method
  intro f hf
  cases hf with
  | arg h =>
    have hx := (hcode.params_have _ (List.of_mem_zip h).2).1
    exact ready_var (htarget _ _ (.arg h)) (hx ▸ hcallee)
  | result h hr =>
    obtain ⟨hm, hlhs, -⟩ := Program.fits_of_stmt? h
    have hv := (hlhs _ rfl).1.trans hm.symm
    exact ready_var (htarget _ _ (.result h hr)) (hv ▸ hsite)
  | receiver hk hr ht =>
    exact ready_var (htarget _ _ (.receiver hk hr ht)) ((hcode.this_has _ ht).1 ▸ hcallee)

/-- Binding along a call edge fails only if the callee cannot be lowered. -/
theorem bind_spec (hc : c.Tidy q) {e : CtxEdge} (hb : c.IsBuilt e.site.site.method)
    {lhs : Option VarId} (hs : q.program.stmt? s = some (.call e.site.site lhs)) :
    (∃ err, c.bind e = ((c.lower e.callee.method).2, .error err) ∧
        (q.program.lowering e.callee.method).1 = .error err) ∨
      ∃ c', c.bind e = (c', .ok []) ∧ Adds (q.Binding e) c c' ∧
        ∀ f, q.Binding e f → c'.Knows f := by
  unfold bind
  rw [hc.ignored_eq, if_neg (OrderedSet.not_mem_empty _)]
  rcases lowering_spec hc e.callee.method _ with ⟨hlow, hbuilt, heq⟩ | ⟨err, herr, heq⟩
  · right
    rw [heq]
    set c₁ := (c.lower e.callee.method).2
    have hc₁ := hlow.keeps.tidy q hc
    have hb₁ := hlow.keeps.built _ hb
    simp only [hc₁.code_eq hbuilt, hc₁.site_eq hb₁]
    have hargs := adds_bindArgs c₁ e.site.ctx e.callee.ctx (q.program.site e.site.site).args
      (q.program.code e.callee.method).params
    set c₂ := c₁.bindArgs e.site.ctx e.callee.ctx (q.program.site e.site.site).args
      (q.program.code e.callee.method).params
    have hc₂ := hargs.keeps.tidy q hc₁
    rw [result?_eq hc₂ hs (hargs.keeps.built _ hb₁)]
    have hresult := adds_bindResult c₂ e.site.ctx e.callee.ctx
      (q.program.code e.callee.method).returns lhs
    set c₃ := c₂.bindResult e.site.ctx e.callee.ctx (q.program.code e.callee.method).returns lhs
    -- beyond arguments and results, the receiver of a special call is bound
    have hrest : ∀ c₄, Adds (fun f => ∃ r this, e.kind = .special ∧
        (q.program.site e.site.site).receiver = some r ∧
        (q.program.code e.callee.method).this = some this ∧
        f = .flow (.var e.site.ctx r) (.var e.callee.ctx this)) c₃ c₄ →
        Adds (q.Binding e) c c₄ ∧ ∀ f, q.Binding e f → c₄.Knows f := by
      intro c₄ h₄
      have hlater := (hargs.trans hresult).trans h₄
      have hall : Adds (q.Binding e) c c₄ := (hlow.trans hlater).congr fun f => by
        rw [Problem.binding_iff hs]
        simp only [false_or, or_assoc]
      exact ⟨hall, knows_binding hall.target (hlater.keeps.built _ hbuilt) (hall.keeps.built _ hb)⟩
    split
    · rename_i r this hk hr ht
      exact ⟨_, rfl, hrest _ ((adds_link c₃ _ _).congr fun f => by simp [hk, hr, ht])⟩
    · rename_i hno
      refine ⟨c₃, rfl, hrest _ ((adds_refl c₃).congr fun f => ⟨False.elim, ?_⟩)⟩
      rintro ⟨r, this, hk, hr, ht, -⟩
      exact hno r this hk hr ht
  · rw [heq]
    exact .inl ⟨err, rfl, herr⟩

/-! ### Methods and call edges -/

theorem adds_seen (c : Core) (seen : OrderedSet MethodId) :
    Adds (fun _ => False) c { c with seen } := by
  refine adds_nothing (keeps_of_setting_eq rfl id rfl rfl fun _ => id) (fun _ _ => id)
    (fun f => ?_) rfl
  cases f <;> rfl

theorem reach_of_mem (hm : m ∈ c.analysis.calls.methods) : c.reach m = (c, .ok []) := by
  rw [reach, if_pos (CallGraph.contains_iff.2 hm)]
  rfl

/-- A new method is lowered, and each statement of its body is to be run. -/
theorem reach_spec (hc : c.Tidy q) (hm : m ∉ c.analysis.calls.methods) :
    (∃ e, (q.program.lowering m.method).1 = .error e ∧
        c.reach m = (((c.modifyCalls (·.addMethod m)).lower m.method).2, .error e)) ∨
      ∃ c' ts, c.reach m = (c', .ok ts) ∧ Adds (· = .reach m) c c' ∧ c'.IsBuilt m.method ∧
        (∀ s ∈ (q.program.code m.method).body, .exec m s false ∈ ts) ∧
        ∀ t ∈ ts, (∃ e, t = .announce e) ∨
          ∃ s ∈ (q.program.code m.method).body, t = .exec m s false := by
  have hadd := adds_addMethod c m
  have hc₁ := hadd.keeps.tidy q hc
  unfold reach
  rw [if_neg (mt CallGraph.contains_iff.1 hm)]
  simp only [hc₁.ignored_eq, OrderedSet.not_mem_empty, if_false]
  rcases lowering_spec hc₁ m.method _ with ⟨hlow, hbuilt, heq⟩ | ⟨e, he, heq⟩
  · right
    rw [heq]
    simp only [(hlow.keeps.tidy q hc₁).code_eq hbuilt]
    split
    · refine ⟨_, _, rfl, (hadd.trans hlow).congr fun f => by simp, hbuilt,
        fun s hs => by simp [hs], fun t ht => ?_⟩
      simp only [List.mem_append, List.mem_map, List.mem_singleton] at ht
      rcases ht with ⟨s, hs, rfl⟩ | rfl
      · exact .inr ⟨s, hs, rfl⟩
      · exact .inl ⟨_, rfl⟩
    · refine ⟨_, _, rfl, ?_, hbuilt, fun s hs => by simp [hs], fun t ht => ?_⟩
      · exact (((hadd.trans hlow).trans (adds_seen _ _)).trans (adds_tell _ _ _)).congr
          fun f => by simp
      · simp only [introduction, List.mem_append, List.mem_cons, List.mem_map,
          List.not_mem_nil, or_false] at ht
        rcases ht with ((rfl | ⟨s, hs, rfl⟩) | ⟨s, hs, rfl⟩) | rfl
        · exact .inl ⟨_, rfl⟩
        · exact .inl ⟨_, rfl⟩
        · exact .inr ⟨s, hs, rfl⟩
        · exact .inl ⟨_, rfl⟩
  · rw [heq]
    exact .inl ⟨e, he, rfl⟩

theorem holds_addEdge (c : Core) (m : CtxMethod) (e : CtxEdge) (f : Fact) :
    (c.modifyCalls (·.addEdge m e)).Holds f ↔
      c.Holds f ∨ c.analysis.calls.hasEdge e.site e.callee = false ∧
        (f = .edge m e ∨ f = .reach m ∨ f = .reach e.callee) := by
  cases f with
  | reach m' => simp [Holds, modifyCalls, CallGraph.mem_methods_addEdge]
  | edge m' e' => simp [Holds, modifyCalls, CallGraph.mem_calls_addEdge]
  | site m' s' => simp [Holds, modifyCalls, CallGraph.sitesIn_addEdge]
  | points p o => simp [Holds, modifyCalls, pointsTo]
  | flow a b => simp [Holds, modifyCalls]

/-- What recording a call edge does: the edge, its caller and its callee are added to the call
graph. -/
theorem record_spec (c : Core) (m : CtxMethod) (e : CtxEdge) :
    ∃ c', c.record m e = (c', .ok [.announce (.newCallEdge e), .bind e]) ∧ c.Keeps c' ∧
      (∀ q, c.LoweredOk q → c'.LoweredOk q) ∧
      c'.worklist = c.worklist ∧
      ∀ f, c'.Holds f ↔ c.Holds f ∨ c.analysis.calls.hasEdge e.site e.callee = false ∧
        (f = .edge m e ∨ f = .reach m ∨ f = .reach e.callee) := by
  have hkeeps : c.Keeps (c.modifyCalls (·.addEdge m e)) :=
    keeps_of_setting_eq rfl (·.addEdge m e) rfl rfl fun _ => id
  refine ⟨_, rfl, hkeeps.trans (adds_tell _ _ _).keeps, fun q h => h, rfl, fun f => ?_⟩
  exact (holds_withElements _ _ f).trans (c.holds_addEdge m e f)

/-! ### Taking up items -/

/-- The state in which the items of the worklist are others. -/
def remain (c : Core) (items : List WorkItem) : Core :=
  { c with worklist := { c.worklist with items }, iterations := c.iterations + 1 }

theorem keeps_remain (c : Core) (items : List WorkItem) : c.Keeps (c.remain items) :=
  keeps_of_setting_eq rfl id rfl rfl fun _ => id

theorem holds_remain (c : Core) (items : List WorkItem) (f : Fact) :
    (c.remain items).Holds f ↔ c.Holds f := by
  cases f <;> rfl

/-- The worklist is empty, or an item is taken up. -/
theorem next_spec (c : Core) :
    (c.worklist.items = [] ∧ c.next = (c, .ok [])) ∨
      ∃ l₁ i l₂, c.worklist.items = l₁ ++ i :: l₂ ∧ (c.worklist.order = .fifo → l₁ = []) ∧
        ((∃ p os, i = .objects p os ∧ c.next = (c.remain (l₁ ++ l₂)).takeObjects p os) ∨
          ∃ m e, i = .edge m e ∧ c.next = (c.remain (l₁ ++ l₂)).takeEdge m e) := by
  unfold next
  rcases c.worklist.pop?_spec with ⟨hitems, hpop⟩ | ⟨l₁, i, l₂, hitems, hpop, horder⟩
  · rw [hpop]
    exact .inl ⟨hitems, rfl⟩
  · rw [hpop]
    refine .inr ⟨l₁, i, l₂, hitems, horder, ?_⟩
    cases i with
    | objects p os => exact .inl ⟨p, os, rfl, rfl⟩
    | edge m e => exact .inr ⟨m, e, rfl, rfl⟩

/-- The call site has the callee already, or else this is to become reachable and the edge to be
recorded. -/
theorem takeEdge_spec (c : Core) (m : CtxMethod) (e : CtxEdge) :
    (c.analysis.calls.hasEdge e.site e.callee = true ∧ c.takeEdge m e = (c, .ok [])) ∨
      c.analysis.calls.hasEdge e.site e.callee = false ∧
        c.takeEdge m e = (c, .ok [.reach e.callee, .record m e]) := by
  unfold takeEdge
  cases c.analysis.calls.hasEdge e.site e.callee with
  | true => exact .inl ⟨rfl, rfl⟩
  | false => exact .inr ⟨rfl, rfl⟩

/-- Objects are put on their way to several pointers. -/
theorem foldl_push_objects (l : List Pointer) (os : PointsToSet) (c : Core) :
    l.foldl (fun c p => c.push (.objects p os)) c =
      { c with worklist := { c.worklist with
          items := c.worklist.items ++ l.map (.objects · os) } } := by
  induction l generalizing c with
  | nil => simp
  | cons p l ih =>
    rw [List.foldl_cons, ih]
    simp [push, Worklist.push]

/-- The state after objects have arrived at a pointer, in which some of them are sent on. -/
def arrive (c : Core) (p : Pointer) (os sent : PointsToSet) : Core :=
  (c.flow.succsOf p).toList.foldl (fun c p => c.push (.objects p sent)) (c.extend p os)

theorem keeps_arrive (c : Core) (p : Pointer) (os sent : PointsToSet) :
    c.Keeps (c.arrive p os sent) := by
  rw [arrive, foldl_push_objects]
  refine keeps_of_setting_eq rfl id rfl rfl fun p' hp' => ?_
  show p' ∈ (c.analysis.heap.pointers.modify p _).keys
  rwa [Table.keys_modify]

theorem loweredOk_arrive (p : Pointer) (os sent : PointsToSet) (h : c.LoweredOk q) :
    (c.arrive p os sent).LoweredOk q := by
  rw [arrive, foldl_push_objects]
  exact h

theorem holds_arrive {p : Pointer} (hp : p ∈ c.analysis.heap.pointers.keys)
    (os sent : PointsToSet) (f : Fact) :
    (c.arrive p os sent).Holds f ↔ c.Holds f ∨ ∃ o ∈ os, f = .points p o := by
  rw [arrive, foldl_push_objects]
  cases f with
  | points p' o =>
    simp only [Holds, extend, pointsTo, Heap.mem_pointsTo_extend, hp, and_true, Fact.points.injEq]
    refine or_congr Iff.rfl ⟨fun h => ⟨o, h.2, h.1, rfl⟩, ?_⟩
    rintro ⟨_, ho, h, rfl⟩
    exact ⟨h, ho⟩
  | _ => simp [Holds, extend]

theorem items_arrive (c : Core) (p : Pointer) (os sent : PointsToSet) :
    (c.arrive p os sent).worklist.items =
      c.worklist.items ++ (c.flow.succsOf p).toList.map (.objects · sent) := by
  rw [arrive, foldl_push_objects]
  rfl

/-- Either all objects that arrive are there, or they are added and the new ones are sent on; then
the statements that depend on a variable are woken up. -/
theorem takeObjects_cases (c : Core) (p : Pointer) (os : PointsToSet) :
    ((∀ o ∈ os, c.Holds (.points p o)) ∧ c.takeObjects p os = (c, .ok [])) ∨
      (∃ o ∈ os, ¬ c.Holds (.points p o)) ∧
        ((∃ o x, p = .field o x ∧
            c.takeObjects p os = (c.arrive p os (os.diff (c.pointsTo p)), .ok [])) ∨
          ∃ ctx v text, p = .var ctx v ∧
            c.takeObjects p os = ((c.arrive p os (os.diff (c.pointsTo p))).tell .trace text,
              .ok [.announce (.newPointsTo ctx v (os.diff (c.pointsTo p))),
                .wake ctx v (os.diff (c.pointsTo p))])) := by
  unfold takeObjects
  simp only
  split <;> rename_i hempty
  · refine .inl ⟨fun o ho => ?_, rfl⟩
    have hno := OrderedSet.isEmpty_iff.1 hempty o
    by_contra hnot
    exact hno (OrderedSet.mem_diff.2 ⟨ho, hnot⟩)
  · have hnew : ∃ o ∈ os, ¬ c.Holds (.points p o) := by
      by_contra hno
      refine hempty (OrderedSet.isEmpty_iff.2 fun o ho => hno ⟨o, ?_⟩)
      exact OrderedSet.mem_diff.1 ho
    refine .inr ⟨hnew, ?_⟩
    cases p with
    | field o x => exact .inl ⟨o, x, rfl, rfl⟩
    | var ctx v => exact .inr ⟨ctx, v, _, rfl, rfl⟩

/-- Objects arrive at a pointer. If there are new ones, they are sent on, and the statements that
depend on a variable are woken up. -/
theorem takeObjects_spec {p : Pointer} {os : PointsToSet}
    (hp : ∀ o ∈ os, p ∈ c.analysis.heap.pointers.keys) :
    ((∀ o ∈ os, c.Holds (.points p o)) ∧ c.takeObjects p os = (c, .ok [])) ∨
      ∃ c' ts, c.takeObjects p os = (c', .ok ts) ∧ c.Keeps c' ∧
        (∀ q, c.LoweredOk q → c'.LoweredOk q) ∧
        (∃ o ∈ os, ¬ c.Holds (.points p o)) ∧
        (∀ f, c'.Holds f ↔ c.Holds f ∨ ∃ o ∈ os, f = .points p o) ∧
        (c'.worklist.items = c.worklist.items ++
          (c.flow.succsOf p).toList.map (.objects · (os.diff (c.pointsTo p)))) ∧
        (∀ ctx v, p = .var ctx v → .wake ctx v (os.diff (c.pointsTo p)) ∈ ts) ∧
        ∀ t ∈ ts, (∃ e, t = .announce e) ∨ ∃ ctx v, p = .var ctx v ∧
          t = .wake ctx v (os.diff (c.pointsTo p)) := by
  rcases c.takeObjects_cases p os with hold | ⟨hnew, htake⟩
  · exact .inl hold
  · right
    replace hp : p ∈ c.analysis.heap.pointers.keys := hnew.elim fun o ho => hp o ho.1
    have hkeeps := keeps_arrive c p os (os.diff (c.pointsTo p))
    have hholds := holds_arrive hp os (os.diff (c.pointsTo p))
    have hitems := items_arrive c p os (os.diff (c.pointsTo p))
    have hlow : ∀ q, c.LoweredOk q → (c.arrive p os (os.diff (c.pointsTo p))).LoweredOk q :=
      fun q => loweredOk_arrive p os _
    rcases htake with ⟨o, x, rfl, heq⟩ | ⟨ctx, v, text, rfl, heq⟩
    · exact ⟨_, [], heq, hkeeps, hlow, hnew, hholds, hitems, nofun, by simp⟩
    · have htell := adds_tell (c.arrive (.var ctx v) os (os.diff (c.pointsTo (.var ctx v)))) .trace
      refine ⟨_, _, heq, hkeeps.trans (htell _).keeps, hlow, hnew,
        fun f => (holds_withElements _ _ f).trans (hholds f), hitems, ?_, fun t ht => ?_⟩
      · rintro ctx' v' ⟨⟩
        simp
      · simp only [List.mem_cons, List.not_mem_nil, or_false] at ht
        rcases ht with rfl | rfl
        · exact .inl ⟨_, rfl⟩
        · exact .inr ⟨ctx, v, rfl, rfl⟩

/-- Nothing is done to drain an empty worklist. -/
theorem drain_spec (c : Core) :
    ∃ ts, c.drain = (c, .ok ts) ∧ ∀ t ∈ ts, t = .next ∨ t = .drain := by
  unfold drain
  split
  · exact ⟨[], rfl, by simp⟩
  · exact ⟨_, rfl, by simp⟩

/-! ### The log -/

theorem adds_statistics (c : Core) : Adds (fun _ => False) c c.statistics := by
  have htell : ∀ {c₁ : Core} (level : Level) (text : String), Adds (fun _ => False) c c₁ →
      Adds (fun _ => False) c (c₁.tell level text) :=
    fun level text h => (h.trans (adds_tell _ level text)).congr fun f => by simp
  unfold statistics
  repeat refine htell _ _ ?_
  exact adds_refl c

end Core

end PointsTo
