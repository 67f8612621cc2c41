import PointsTo.Proofs.CallGraph.Consistent
import PointsTo.Proofs.Rules

/-!
# What the solver knows

The state of the solver is read as a set of facts: those that hold in it, and those that an item of
the worklist is about to bring. Work on the state other than taking up an item only adds to both.

* `Core.Holds`, `Core.Awaits` and `Core.Due`: a fact holds, is on the worklist, either of the two;
* `Core.Tidy`: the tables, the heap and the call graph say nothing but what the program says;
* `Core.Adds`: a state comes from another one by adding some facts, and the objects that have to
  flow along new edges;
* each operation on the state adds what it should (`Core.adds_push`, `Core.adds_link`, …).
-/

namespace PointsTo

/-- An item of the worklist brings a fact. -/
inductive WorkItem.Carries : WorkItem → Fact → Prop
  | points {p : Pointer} {os : PointsToSet} {o : Obj} (h : o ∈ os) :
      Carries (.objects p os) (.points p o)
  | edge {m : CtxMethod} {e : CtxEdge} : Carries (.edge m e) (.edge m e)

/-- The facts that come to hold when an item of the worklist is taken up; the others hold as soon as
they are found. -/
def Fact.IsWork : Fact → Prop
  | .points _ _ | .edge _ _ => True
  | _ => False

namespace Core

/-- A fact holds in a state. -/
def Holds (c : Core) : Fact → Prop
  | .reach m => m ∈ c.analysis.calls.methods
  | .site m s => s ∈ c.analysis.calls.sitesIn m
  | .edge m e => (m, e) ∈ c.analysis.calls.calls
  | .points p o => o ∈ c.pointsTo p
  | .flow a b => c.flow.hasEdge a b = true

/-- A method is reachable in a state. -/
def Reaches (c : Core) (m : CtxMethod) : Prop := c.Holds (.reach m)

/-- A fact is on the worklist. -/
def Awaits (c : Core) (f : Fact) : Prop := ∃ i ∈ c.worklist.items, i.Carries f

/-- A fact holds or is on the worklist. -/
def Due (c : Core) (f : Fact) : Prop := c.Holds f ∨ c.Awaits f

/-- The body of a method was lowered. -/
def IsBuilt (c : Core) (m : MethodId) : Prop := c.elements.isBuilt m = true

/-- The state is that of a run for `q` without plugins, and what it has recorded about the program
is right. -/
structure Tidy (q : Problem) (c : Core) : Prop where
  program_eq : c.program = q.program
  policy_eq : c.policy = q.policy
  entries_eq : c.entries = q.entries
  ignored_eq : c.ignored = ∅
  watchers_eq : c.watchers = ∅
  faithful : c.elements.Faithful
  typed : ∀ o ty, c.analysis.heap.objs.find? o = some ty → q.program.allocType? o.site = some ty
  calls : c.analysis.calls.Consistent

/-- The parts of a state that tidiness depends on, besides the call graph. -/
def setting (c : Core) : ContextPolicy × List MethodId × OrderedSet MethodId ×
    Table Pointer (List StmtId) × Elements × Table Obj Ty :=
  (c.policy, c.entries, c.ignored, c.watchers, c.elements, c.analysis.heap.objs)

/-- No method that was lowered had an error. -/
def LoweredOk (q : Problem) (c : Core) : Prop :=
  ∀ m, c.IsBuilt m → (q.program.lowering m).1 = .ok ()

/-- What was made in a state is still there in another one. -/
structure Keeps (c c' : Core) : Prop where
  tidy : ∀ q, c.Tidy q → c'.Tidy q
  order : c'.worklist.order = c.worklist.order
  started : c'.started = c.started
  built : ∀ m, c.IsBuilt m → c'.IsBuilt m
  objs : ∀ o ∈ c.analysis.heap.objs.keys, o ∈ c'.analysis.heap.objs.keys
  pointers : ∀ p ∈ c.analysis.heap.pointers.keys, p ∈ c'.analysis.heap.pointers.keys

/-- The facts that new edges of the flow graph bring about at once. -/
def Spreads (c : Core) (F : Fact → Prop) (f : Fact) : Prop :=
  ∃ a b o, f = .points b o ∧ F (.flow a b) ∧ c.Holds (.points a o)

/-- Whatever has to flow along the edges of the flow graph has arrived or is on the worklist. -/
def FlowClosed (c : Core) : Prop :=
  ∀ a b o, c.Holds (.flow a b) → c.Holds (.points a o) → c.Due (.points b o)

/-- The state `c'` comes from `c` by adding the facts of `F`. -/
structure Adds (F : Fact → Prop) (c c' : Core) : Prop where
  keeps : c.Keeps c'
  loweredOk : ∀ q, c.Tidy q → c.LoweredOk q → c'.LoweredOk q
  holds : ∀ f, c'.Holds f ↔ c.Holds f ∨ F f ∧ ¬ f.IsWork
  queue : ∃ more, c'.worklist.items = c.worklist.items ++ more ∧
    ∀ i ∈ more, ∀ f, i.Carries f → F f ∨ c.Spreads F f
  awaits : ∀ f, F f → f.IsWork → c'.Awaits f
  target : ∀ a b, F (.flow a b) → b ∈ c'.analysis.heap.pointers.keys
  closed : c.FlowClosed → c'.FlowClosed

variable {c c₁ c₂ : Core} {q : Problem} {F G : Fact → Prop} {f : Fact}

theorem awaits_congr (h : c₁.worklist = c.worklist) : c₁.Awaits f ↔ c.Awaits f := by
  rw [Awaits, Awaits, h]

/-! ### Adding facts -/

theorem Keeps.refl (c : Core) : c.Keeps c :=
  ⟨fun _ => id, rfl, rfl, fun _ => id, fun _ => id, fun _ => id⟩

theorem Keeps.trans (h₁ : c.Keeps c₁) (h₂ : c₁.Keeps c₂) : c.Keeps c₂ where
  tidy q h := h₂.tidy q (h₁.tidy q h)
  order := h₂.order.trans h₁.order
  started := h₂.started.trans h₁.started
  built m h := h₂.built m (h₁.built m h)
  objs o h := h₂.objs o (h₁.objs o h)
  pointers p h := h₂.pointers p (h₁.pointers p h)

theorem Tidy.of_setting_eq (h : c.Tidy q) (hs : c₁.setting = c.setting)
    (hcalls : c₁.analysis.calls.Consistent) : c₁.Tidy q := by
  simp only [setting, Prod.mk.injEq] at hs
  obtain ⟨hpolicy, hentries, hignored, hwatchers, helements, hobjs⟩ := hs
  exact ⟨(congrArg Elements.program helements).trans h.program_eq, hpolicy.trans h.policy_eq,
    hentries.trans h.entries_eq, hignored.trans h.ignored_eq, hwatchers.trans h.watchers_eq,
    helements ▸ h.faithful, hobjs ▸ h.typed, hcalls⟩

theorem keeps_of_setting_eq (hs : c₁.setting = c.setting)
    (hcalls : c.analysis.calls.Consistent → c₁.analysis.calls.Consistent)
    (horder : c₁.worklist.order = c.worklist.order) (hstarted : c₁.started = c.started)
    (hp : ∀ p ∈ c.analysis.heap.pointers.keys, p ∈ c₁.analysis.heap.pointers.keys) :
    c.Keeps c₁ := by
  have htidy : ∀ q, c.Tidy q → c₁.Tidy q := fun q h => h.of_setting_eq hs (hcalls h.calls)
  simp only [setting, Prod.mk.injEq] at hs
  obtain ⟨-, -, -, -, helements, hobjs⟩ := hs
  refine ⟨htidy, horder, hstarted, fun m hm => ?_, fun o ho => ?_, hp⟩
  · rwa [IsBuilt, helements]
  · rwa [hobjs]

namespace Adds

theorem holds_of_holds (h : Adds F c c₁) (hf : c.Holds f) : c₁.Holds f := (h.holds f).2 (.inl hf)

theorem holds_iff_of_isWork (h : Adds F c c₁) (hf : f.IsWork) : c₁.Holds f ↔ c.Holds f := by
  rw [h.holds]
  exact ⟨fun h' => h'.elim id fun h'' => absurd hf h''.2, .inl⟩

theorem awaits_of_awaits (h : Adds F c c₁) (hf : c.Awaits f) : c₁.Awaits f := by
  obtain ⟨more, hm, -⟩ := h.queue
  obtain ⟨i, hi, hif⟩ := hf
  exact ⟨i, hm ▸ List.mem_append_left more hi, hif⟩

theorem due_of_due (h : Adds F c c₁) (hf : c.Due f) : c₁.Due f :=
  hf.imp h.holds_of_holds h.awaits_of_awaits

/-- What was to be added is due. -/
theorem due (h : Adds F c c₁) (hf : F f) : c₁.Due f := by
  by_cases hw : f.IsWork
  · exact .inr (h.awaits f hf hw)
  · exact .inl ((h.holds f).2 (.inr ⟨hf, hw⟩))

/-- What is due was so before, was to be added, or flows along a new edge. -/
theorem due_cases (h : Adds F c c₁) (hf : c₁.Due f) : c.Due f ∨ F f ∨ c.Spreads F f := by
  rcases hf with hf | ⟨i, hi, hif⟩
  · exact ((h.holds f).1 hf).imp .inl fun h' => .inl h'.1
  · obtain ⟨more, hm, hmore⟩ := h.queue
    rcases List.mem_append.1 (hm ▸ hi) with hi | hi
    · exact .inl (.inr ⟨i, hi, hif⟩)
    · exact .inr (hmore i hi f hif)

theorem trans (h₁ : Adds F c c₁) (h₂ : Adds G c₁ c₂) : Adds (fun f => F f ∨ G f) c c₂ where
  keeps := h₁.keeps.trans h₂.keeps
  loweredOk q hq h := h₂.loweredOk q (h₁.keeps.tidy q hq) (h₁.loweredOk q hq h)
  holds f := by rw [h₂.holds, h₁.holds, or_and_right, or_assoc]
  queue := by
    obtain ⟨more₁, hm₁, hw₁⟩ := h₁.queue
    obtain ⟨more₂, hm₂, hw₂⟩ := h₂.queue
    refine ⟨more₁ ++ more₂, by rw [hm₂, hm₁, List.append_assoc], fun i hi f hf => ?_⟩
    rcases List.mem_append.1 hi with hi | hi
    · refine (hw₁ i hi f hf).imp .inl ?_
      rintro ⟨a, b, o, rfl, hab, ho⟩
      exact ⟨a, b, o, rfl, .inl hab, ho⟩
    · refine (hw₂ i hi f hf).imp .inr ?_
      rintro ⟨a, b, o, rfl, hab, ho⟩
      exact ⟨a, b, o, rfl, .inr hab, (h₁.holds_iff_of_isWork (f := .points a o) trivial).1 ho⟩
  awaits f hf hw := hf.elim (fun hf => h₂.awaits_of_awaits (h₁.awaits f hf hw))
    (fun hf => h₂.awaits f hf hw)
  target a b hab := hab.elim (fun hab => h₂.keeps.pointers b (h₁.target a b hab)) (h₂.target a b)
  closed h := h₂.closed (h₁.closed h)

/-- Only the extent of the facts that are added matters. -/
theorem congr (h : Adds F c c₁) (hFG : ∀ f, F f ↔ G f) : Adds G c c₁ :=
  (funext fun f => propext (hFG f) : F = G) ▸ h

end Adds

/-! ### Operations that add no facts -/

/-- A state with the same facts. -/
theorem adds_nothing (hk : c.Keeps c₁)
    (hl : ∀ q, c.Tidy q → c.LoweredOk q → c₁.LoweredOk q)
    (hh : ∀ f, c₁.Holds f ↔ c.Holds f) (hi : c₁.worklist.items = c.worklist.items) :
    Adds (fun _ => False) c c₁ where
  keeps := hk
  loweredOk := hl
  holds f := by simp [hh]
  queue := ⟨[], by simp [hi], by simp⟩
  awaits _ h := h.elim
  target _ _ h := h.elim
  closed h a b o hab ha := by
    rw [Due, Awaits, hi, hh]
    exact h a b o ((hh _).1 hab) ((hh _).1 ha)

theorem adds_refl (c : Core) : Adds (fun _ => False) c c :=
  adds_nothing (.refl c) (fun _ _ => id) (fun _ => Iff.rfl) rfl

theorem holds_withElements (c : Core) (e : Elements) (f : Fact) :
    (c.withElements e).Holds f ↔ c.Holds f := by
  cases f <;> rfl

/-- The tables are exchanged for other faithful ones of the same program. -/
theorem keeps_withElements {e : Elements} (hp : e.program = c.elements.program)
    (hf : c.elements.Faithful → e.Faithful)
    (hb : ∀ m, c.elements.isBuilt m = true → e.isBuilt m = true) :
    c.Keeps (c.withElements e) where
  tidy _ h := ⟨hp.trans h.program_eq, h.policy_eq, h.entries_eq, h.ignored_eq, h.watchers_eq,
    hf h.faithful, h.typed, h.calls⟩
  order := rfl
  started := rfl
  built := hb
  objs _ := id
  pointers _ := id

/-- The tables are exchanged for others with the same code. -/
theorem adds_withElements {e : Elements} (hp : e.program = c.elements.program)
    (hf : c.elements.Faithful → e.Faithful) (hb : ∀ m, e.isBuilt m = c.elements.isBuilt m) :
    Adds (fun _ => False) c (c.withElements e) := by
  refine adds_nothing (keeps_withElements hp hf fun m hm => (hb m).trans hm) (fun q _ h m hm => ?_)
    (holds_withElements c e) rfl
  exact h m ((hb m).symm.trans hm)

theorem adds_tell (c : Core) (level : Level) (text : String) :
    Adds (fun _ => False) c (c.tell level text) :=
  adds_withElements rfl (fun h => ⟨h.code_eq, h.memo_eq⟩) fun _ => rfl

theorem adds_useContext (c : Core) (x : Context) : Adds (fun _ => False) c (c.useContext x) := by
  refine adds_nothing (keeps_of_setting_eq rfl id rfl rfl fun _ => id) (fun _ _ => id)
    (fun f => ?_) rfl
  cases f <;> rfl

theorem setting_addPointer (c : Core) (p : Pointer) : (c.addPointer p).setting = c.setting := by
  simp [setting, addPointer, elements, Heap.objs_addPointer]

theorem adds_addPointer (c : Core) (p : Pointer) : Adds (fun _ => False) c (c.addPointer p) := by
  refine adds_nothing (keeps_of_setting_eq (c.setting_addPointer p) id rfl rfl fun p' hp' => ?_)
    (fun _ _ => id) (fun f => ?_) rfl
  · exact Heap.mem_keys_addPointer.2 (.inl hp')
  · cases f with
    | reach | site | edge | flow => rfl
    | points p' o =>
      show o ∈ (c.analysis.heap.addPointer p).pointsTo p' ↔ _
      rw [Heap.pointsTo_addPointer]
      rfl

/-- An object may be created with the type of its allocation only. -/
theorem adds_addObj {o : Obj} {ty : Ty}
    (hty : c.program.allocType? o.site = some ty) :
    Adds (fun _ => False) c (c.addObj o ty) := by
  refine adds_nothing ⟨fun q h => ?_, rfl, rfl, fun _ => id, fun o' ho' => ?_, fun _ => id⟩
    (fun _ _ => id) (fun f => ?_) rfl
  · refine ⟨h.program_eq, h.policy_eq, h.entries_eq, h.ignored_eq, h.watchers_eq, h.faithful, ?_,
      h.calls⟩
    intro o' ty' ho'
    replace ho' : (c.analysis.heap.objs.insert o ty).find? o' = some ty' := ho'
    rw [Table.find?_insert] at ho'
    split at ho' <;> rename_i heq
    · subst heq
      cases hf : c.analysis.heap.objs.find? o' with
      | none =>
        rw [hf] at ho'
        cases ho'
        exact h.program_eq ▸ hty
      | some ty₀ =>
        rw [hf] at ho'
        cases ho'
        exact h.typed o' ty₀ hf
    · exact h.typed o' ty' ho'
  · exact Table.mem_keys_insert.2 (.inl ho')
  · cases f <;> rfl

/-! ### Operations that add facts -/

theorem adds_push (c : Core) (i : WorkItem) : Adds i.Carries c (c.push i) where
  keeps := keeps_of_setting_eq rfl id rfl rfl fun _ => id
  loweredOk _ _ := id
  holds f := by
    have hw : i.Carries f → f.IsWork := by rintro (h | _) <;> trivial
    have hh : (c.push i).Holds f ↔ c.Holds f := by cases f <;> rfl
    rw [hh]
    exact ⟨.inl, fun h => h.elim id fun h => absurd (hw h.1) h.2⟩
  queue := ⟨[i], rfl, fun j hj f hf => by rw [List.mem_singleton.1 hj] at hf; exact .inl hf⟩
  awaits f hf _ := ⟨i, List.mem_append_right _ (List.mem_singleton.2 rfl), hf⟩
  target _ _ h := nomatch h
  closed h a b o hab ha :=
    (h a b o hab ha).imp id fun ⟨j, hj, hc⟩ => ⟨j, List.mem_append_left _ hj, hc⟩

/-- A change of the call graph that leaves its edges alone. -/
theorem adds_modifyCalls {g : CallGraph CtxSite CtxMethod → CallGraph CtxSite CtxMethod}
    (hg : c.analysis.calls.Consistent → (g c.analysis.calls).Consistent)
    (hcalls : (g c.analysis.calls).calls = c.analysis.calls.calls)
    (hF : ∀ f, F f → ¬ f.IsWork ∧ ∀ a b, f ≠ .flow a b)
    (hreach : ∀ m, m ∈ (g c.analysis.calls).methods ↔ m ∈ c.analysis.calls.methods ∨ F (.reach m))
    (hsite : ∀ m s, s ∈ (g c.analysis.calls).sitesIn m ↔
      s ∈ c.analysis.calls.sitesIn m ∨ F (.site m s)) :
    Adds F c (c.modifyCalls g) where
  keeps := keeps_of_setting_eq rfl hg rfl rfl fun _ => id
  loweredOk _ _ := id
  holds f := by
    cases f with
    | reach m => simp [Holds, modifyCalls, hreach, Fact.IsWork]
    | site m s => simp [Holds, modifyCalls, hsite, Fact.IsWork]
    | edge m e => simp [Holds, modifyCalls, hcalls, Fact.IsWork]
    | points p o => simp [Holds, modifyCalls, pointsTo, Fact.IsWork]
    | flow a b =>
      have hn : ¬ F (.flow a b) := fun h => (hF _ h).2 a b rfl
      simp [Holds, modifyCalls, hn]
  queue := ⟨[], by simp [modifyCalls], by simp⟩
  awaits f hf hw := absurd hw (hF f hf).1
  target a b h := absurd rfl ((hF _ h).2 a b)
  closed h := h

theorem adds_addMethod (c : Core) (m : CtxMethod) :
    Adds (· = .reach m) c (c.modifyCalls (·.addMethod m)) := by
  refine adds_modifyCalls (·.addMethod m) rfl ?_ (fun m' => ?_) fun m' s => ?_
  · rintro f rfl
    exact ⟨id, by simp⟩
  · simp
  · simp [CallGraph.addMethod, CallGraph.sitesIn]

theorem adds_addEntry (c : Core) (m : CtxMethod) :
    Adds (· = .reach m) c (c.modifyCalls (·.addEntry m)) := by
  refine adds_modifyCalls (·.addEntry m) rfl ?_ (fun m' => ?_) fun m' s => ?_
  · rintro f rfl
    exact ⟨id, by simp⟩
  · simp
  · simp [CallGraph.addEntry, CallGraph.addMethod, CallGraph.sitesIn]

theorem adds_addSite (c : Core) (m : CtxMethod) (s : CtxSite) :
    Adds (· = .site m s) c (c.modifyCalls (·.addSite m s)) := by
  refine adds_modifyCalls (·.addSite m s) rfl ?_ (fun m' => by simp) fun m' s' => ?_
  · rintro f rfl
    exact ⟨id, by simp⟩
  · rw [CallGraph.sitesIn_addSite]
    split <;> simp_all

/-- A new edge of the flow graph, along which everything is sent that is at its start. -/
theorem adds_flow {a b : Pointer} (hb : b ∈ c.analysis.heap.pointers.keys) {more : List WorkItem}
    (hsent : ∀ i ∈ more, ∀ f, i.Carries f → ∃ o ∈ c.pointsTo a, f = .points b o)
    (hall : ∀ o ∈ c.pointsTo a, ∃ i ∈ more, i.Carries (.points b o)) :
    Adds (· = .flow a b) c { c with
      flow := c.flow.addEdge a b
      worklist := { c.worklist with items := c.worklist.items ++ more } } where
  keeps := keeps_of_setting_eq rfl id rfl rfl fun _ => id
  loweredOk _ _ := id
  holds f := by
    cases f with
    | flow a' b' => simp [Holds, FlowGraph.hasEdge_addEdge, Fact.IsWork]
    | _ => simp [Holds, pointsTo]
  queue := by
    refine ⟨more, rfl, fun i hi f hf => .inr ?_⟩
    obtain ⟨o, ho, rfl⟩ := hsent i hi f hf
    exact ⟨a, b, o, rfl, rfl, ho⟩
  awaits f hf hw := by
    subst hf
    exact hw.elim
  target a' b' h := by
    cases h
    exact hb
  closed h a' b' o hab ho := by
    rcases FlowGraph.hasEdge_addEdge.1 hab with hab | ⟨rfl, rfl⟩
    · refine (h a' b' o hab ho).imp_right ?_
      rintro ⟨i, hi, hc⟩
      exact ⟨i, List.mem_append_left _ hi, hc⟩
    · obtain ⟨i, hi, hc⟩ := hall o ho
      exact .inr ⟨i, List.mem_append_right _ hi, hc⟩

theorem adds_link (c : Core) (a b : Pointer) : Adds (· = .flow a b) c (c.link a b) := by
  have h := (adds_addPointer c a).trans (adds_addPointer (c.addPointer a) b)
  set c₁ := (c.addPointer a).addPointer b with hc₁
  have hb : b ∈ c₁.analysis.heap.pointers.keys := Heap.mem_keys_addPointer.2 (.inr rfl)
  suffices h₂ : Adds (· = .flow a b) c₁ (c.link a b) from (h.trans h₂).congr fun f => by simp
  unfold link
  rw [← hc₁]
  simp only
  split <;> rename_i hab
  · -- the edge is there already
    refine ⟨.refl c₁, fun _ _ => id, fun f => ⟨.inl, ?_⟩, ⟨[], by simp, by simp⟩, ?_, ?_, id⟩
    · rintro (hf | ⟨rfl, -⟩)
      · exact hf
      · exact hab
    · rintro f rfl hw
      exact hw.elim
    · rintro a' b' h
      cases h
      exact hb
  · split <;> rename_i hempty
    · have hnone := OrderedSet.isEmpty_iff.1 hempty
      simpa using adds_flow hb (fun i (hi : i ∈ []) => (List.not_mem_nil hi).elim)
        fun o ho => absurd ho (hnone o)
    · refine adds_flow hb (fun i hi f hf => ?_)
        fun o ho => ⟨_, List.mem_singleton.2 rfl, .points ho⟩
      rw [List.mem_singleton.1 hi] at hf
      cases hf with
      | points ho => exact ⟨_, ho, rfl⟩

/-- Several edges of the flow graph are drawn one after the other. -/
theorem adds_foldl_link {α : Type} (l : List α) (a b : α → Pointer) (c : Core) :
    Adds (fun f => ∃ x ∈ l, f = .flow (a x) (b x)) c
      (l.foldl (fun c x => c.link (a x) (b x)) c) := by
  induction l generalizing c with
  | nil => exact (adds_refl c).congr fun f => by simp
  | cons x l ih =>
    exact ((adds_link c (a x) (b x)).trans (ih (c.link (a x) (b x)))).congr fun f => by simp

end Core

end PointsTo
