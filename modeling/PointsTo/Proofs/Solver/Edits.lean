import Mathlib.Logic.Relation
import PointsTo.Proofs.Elements.Growth
import PointsTo.Proofs.Solver.Tasks

/-!
# Edits of the state

With plugins, little is known about the tables and the methods that are lowered. But the solver
works on its state by few operations, each of which adds to it, and takes up items of the worklist.

* `Core.Edit`: one operation, with what it relies on and what it puts on record; `Core.Edits`:
  several of them;
* `Core.Grows`: what was there is still there (`Core.Edits.grows`);
* `Core.WellFormed`: the parts of a state agree with each other, and whatever has to flow along an
  edge of the flow graph has arrived or is on the worklist (`Core.WellFormed.edits`).
-/

namespace PointsTo

/-- A call edge leaves from a call site that is there and has an owner, and it is of its kind. -/
def Elements.Fits (e : Elements) (x : CtxEdge) : Prop :=
  ∃ t owner, e.site? x.site.site = some t ∧ t.call = some owner ∧ x.kind = t.kind

theorem Elements.Grows.fits {e e' : Elements} {x : CtxEdge} (h : e.Grows e') (hx : e.Fits x) :
    e'.Fits x := by
  obtain ⟨t, owner, ht, howner, hk⟩ := hx
  obtain ⟨t', ht', hb⟩ := h.site? ht
  exact ⟨t', owner, ht', hb.call owner howner, hk.trans hb.kind_eq.symm⟩

namespace Heap

/-- The index by variables lists their pointers. -/
def Indexed (h : Heap) : Prop :=
  ∀ v p, p ∈ h.pointersOf v ↔ p ∈ h.pointers.keys ∧ ∃ ctx, p = .var ctx v

theorem Indexed.addPointer {h : Heap} (hi : h.Indexed) (p : Pointer) :
    (h.addPointer p).Indexed := by
  intro v p'
  unfold Heap.addPointer
  split
  · exact hi v p'
  · have hd : ([] : List Pointer) = default := rfl
    cases p with
    | field o x =>
      show p' ∈ h.pointersOf v ↔ p' ∈ (h.pointers.insert (.field o x) ∅).keys ∧ _
      rw [hi, Table.mem_keys_insert]
      refine and_congr_left ?_
      rintro ⟨ctx, rfl⟩
      simp
    | var ctx w =>
      show p' ∈ (h.varPointers.update w [] (· ++ [.var ctx w])).get v ↔
        p' ∈ (h.pointers.insert (.var ctx w) ∅).keys ∧ _
      rw [hd, Table.get_update_default, Table.mem_keys_insert, or_and_right, ← hi]
      have hnew : (p' = .var ctx w ∧ ∃ ctx', p' = .var ctx' v) ↔ v = w ∧ p' = .var ctx w := by
        constructor
        · rintro ⟨rfl, ctx', h⟩
          cases h
          exact ⟨rfl, rfl⟩
        · rintro ⟨rfl, rfl⟩
          exact ⟨rfl, ctx, rfl⟩
      rw [hnew]
      split <;> rename_i hv
      · subst hv
        simp [pointersOf, ← hd]
      · simp [hv, pointersOf]

end Heap

namespace Core

/-- What a fact is about is there. -/
def Admits (c : Core) : Fact → Prop
  | .points p o => p ∈ c.analysis.heap.pointers.keys ∧ o ∈ c.analysis.heap.objs.keys
  | .flow _ b => b ∈ c.analysis.heap.pointers.keys
  | .edge _ e => c.elements.Fits e
  | .reach _ | .site _ _ => True

/-- What is there in `c` is there in `c'`, with the same meaning. -/
structure Grows (c c' : Core) : Prop where
  elements : c.elements.Develops c'.elements
  policy_eq : c'.policy = c.policy
  holds : ∀ f, c.Holds f → c'.Holds f
  objs : ∀ o ty, c.analysis.heap.objs.find? o = some ty → c'.analysis.heap.objs.find? o = some ty
  pointers : ∀ p ∈ c.analysis.heap.pointers.keys, p ∈ c'.analysis.heap.pointers.keys
  watchers : ∀ p, ∀ s ∈ c.watchers.get p, s ∈ c'.watchers.get p
  ignored : ∀ m ∈ c.ignored, m ∈ c'.ignored

/-- What is put on record besides facts that are due. -/
inductive Deed where
  /-- A statement waits for objects of a pointer. -/
  | watch (p : Pointer) (s : StmtId)
  /-- A call edge is recorded. -/
  | record (m : CtxMethod) (e : CtxEdge)

/-- One operation on the state, which puts at most `D` on record. -/
inductive Edit (D : Deed → Prop) (c : Core) : Core → Prop
  | tables {e : Elements} (h : c.elements.Develops e) : Edit D c (c.withElements e)
  | context (x : Context) : Edit D c (c.useContext x)
  | object {o : Obj} {ty : Ty} {lhs : VarId} (h : c.elements.Has o.site (.alloc lhs ty)) :
      Edit D c (c.addObj o ty)
  | pointer (p : Pointer) : Edit D c (c.addPointer p)
  | link (a b : Pointer) : Edit D c (c.link a b)
  | push {i : WorkItem} (h : ∀ f, i.Carries f → c.Admits f) : Edit D c (c.push i)
  | method (m : CtxMethod) : Edit D c (c.modifyCalls (·.addMethod m))
  | entry (m : CtxMethod) : Edit D c (c.modifyCalls (·.addEntry m))
  | site (m : CtxMethod) (s : CtxSite) : Edit D c (c.modifyCalls (·.addSite m s))
  | record {m : CtxMethod} {e : CtxEdge} (hd : D (.record m e)) (h : c.elements.Fits e) :
      Edit D c (c.modifyCalls (·.addEdge m e))
  | watch {p : Pointer} {s : StmtId} {st : Stmt} (hd : D (.watch p s)) (h : c.elements.Has s st) :
      Edit D c { c with watchers := c.watchers.update p [] (· ++ [s]) }
  | note {ignored seen : OrderedSet MethodId} {started : Bool} {journal : List String}
      (h : ∀ m ∈ c.ignored, m ∈ ignored) : Edit D c { c with ignored, seen, started, journal }

/-- Some operations on the state, one after the other. -/
abbrev Edits (D : Deed → Prop) : Core → Core → Prop := Relation.ReflTransGen (Edit D)

variable {D : Deed → Prop} {c c₁ c₂ : Core} {f : Fact}

/-! ### Growth -/

namespace Grows

theorem refl (c : Core) : c.Grows c :=
  ⟨.refl, rfl, fun _ => id, fun _ _ => id, fun _ => id, fun _ _ => id, fun _ => id⟩

theorem trans (h₁ : c.Grows c₁) (h₂ : c₁.Grows c₂) : c.Grows c₂ where
  elements := h₁.elements.trans h₂.elements
  policy_eq := h₂.policy_eq.trans h₁.policy_eq
  holds f h := h₂.holds f (h₁.holds f h)
  objs o ty h := h₂.objs o ty (h₁.objs o ty h)
  pointers p h := h₂.pointers p (h₁.pointers p h)
  watchers p s h := h₂.watchers p s (h₁.watchers p s h)
  ignored m h := h₂.ignored m (h₁.ignored m h)

theorem mem_objs (h : c.Grows c₁) {o : Obj} (ho : o ∈ c.analysis.heap.objs.keys) :
    o ∈ c₁.analysis.heap.objs.keys := by
  cases hf : c.analysis.heap.objs.find? o with
  | none => exact absurd ho (Table.find?_eq_none_iff.1 hf)
  | some ty =>
    by_contra hno
    cases (h.objs o ty hf).symm.trans (Table.find?_eq_none_iff.2 hno)

theorem typeOf_eq (h : c.Grows c₁) {o : Obj} (ho : o ∈ c.analysis.heap.objs.keys) :
    c₁.analysis.heap.typeOf o = c.analysis.heap.typeOf o := by
  cases hf : c.analysis.heap.objs.find? o with
  | none => exact absurd ho (Table.find?_eq_none_iff.1 hf)
  | some ty => rw [Heap.typeOf, Heap.typeOf, Table.get, Table.get, hf, h.objs o ty hf]

theorem isBuilt (h : c.Grows c₁) {m : MethodId} (hm : c.IsBuilt m) : c₁.IsBuilt m :=
  ((h.elements.grows.code m).built hm).1

theorem admits (h : c.Grows c₁) (hf : c.Admits f) : c₁.Admits f := by
  cases f with
  | points p o => exact ⟨h.pointers p hf.1, h.mem_objs hf.2⟩
  | flow a b => exact h.pointers b hf
  | edge m e => exact h.elements.grows.fits hf
  | reach | site => trivial

/-- Adding facts to a state extends it, if the rest stays as it is. -/
theorem of_adds {F : Fact → Prop} (h : Adds F c c₁) (hs : c₁.setting = c.setting) :
    c.Grows c₁ := by
  simp only [setting, Prod.mk.injEq] at hs
  obtain ⟨hpolicy, -, hignored, hwatchers, helements, hobjs⟩ := hs
  refine ⟨helements ▸ .refl, hpolicy, fun f => h.holds_of_holds, fun o ty ho => hobjs ▸ ho,
    h.keeps.pointers, fun p s hs => hwatchers ▸ hs, fun m hm => hignored ▸ hm⟩

end Grows

theorem analysis_link (c : Core) (a b : Pointer) :
    (c.link a b).analysis = ((c.addPointer a).addPointer b).analysis := by
  unfold link
  simp only
  split
  · rfl
  · split <;> rfl

theorem setting_link (c : Core) (a b : Pointer) : (c.link a b).setting = c.setting := by
  rw [← c.setting_addPointer a, ← (c.addPointer a).setting_addPointer b]
  unfold link
  simp only
  split
  · rfl
  · split <;> rfl

theorem Edit.grows (h : Edit D c c₁) : c.Grows c₁ := by
  cases h with
  | tables h =>
    exact ⟨h, rfl, fun f => (holds_withElements c _ f).2, fun _ _ => id, fun _ => id, fun _ _ => id,
      fun _ => id⟩
  | context x => exact .of_adds (adds_useContext c x) rfl
  | @object o ty =>
    refine ⟨.refl, rfl, fun f hf => ?_, fun o' ty' ho' => ?_, fun _ => id, fun _ _ => id,
      fun _ => id⟩
    · cases f <;> exact hf
    · show (c.analysis.heap.objs.insert o ty).find? o' = some ty'
      rw [Table.find?_insert]
      split <;> rename_i heq
      · rw [← heq, ho']
        rfl
      · exact ho'
  | pointer p => exact .of_adds (adds_addPointer c p) (c.setting_addPointer p)
  | link a b => exact .of_adds (adds_link c a b) (c.setting_link a b)
  | push => exact .of_adds (adds_push c _) rfl
  | method m => exact .of_adds (adds_addMethod c m) rfl
  | entry m => exact .of_adds (adds_addEntry c m) rfl
  | site m s => exact .of_adds (adds_addSite c m s) rfl
  | record =>
    exact ⟨.refl, rfl, fun f hf => (c.holds_addEdge _ _ f).2 (.inl hf), fun _ _ => id, fun _ => id,
      fun _ _ => id, fun _ => id⟩
  | @watch p s =>
    refine ⟨.refl, rfl, fun f hf => ?_, fun _ _ => id, fun _ => id, fun p' s' hs' => ?_,
      fun _ => id⟩
    · cases f <;> exact hf
    · show s' ∈ (c.watchers.update p default (· ++ [s])).get p'
      rw [Table.get_update_default]
      split <;> rename_i hp
      · exact List.mem_append_left _ (hp ▸ hs')
      · exact hs'
  | note h =>
    refine ⟨.refl, rfl, fun f hf => ?_, fun _ _ => id, fun _ => id, fun _ _ => id, h⟩
    cases f <;> exact hf

theorem Edit.items (h : Edit D c c₁) :
    ∃ more, c₁.worklist.items = c.worklist.items ++ more := by
  have hadds : ∀ {F : Fact → Prop}, Adds F c c₁ →
      ∃ more, c₁.worklist.items = c.worklist.items ++ more :=
    fun h => h.queue.imp fun more h => h.1
  cases h with
  | tables | object | record | watch | note => exact ⟨[], (List.append_nil _).symm⟩
  | context x => exact hadds (adds_useContext c x)
  | pointer p => exact hadds (adds_addPointer c p)
  | link a b => exact hadds (adds_link c a b)
  | push => exact hadds (adds_push c _)
  | method m => exact hadds (adds_addMethod c m)
  | entry m => exact hadds (adds_addEntry c m)
  | site m s => exact hadds (adds_addSite c m s)

namespace Edits

theorem grows (h : Edits D c c₁) : c.Grows c₁ := by
  induction h with
  | refl => exact .refl c
  | tail _ h ih => exact ih.trans h.grows

theorem of_quiet (h : Edits (fun _ => False) c c₁) : Edits D c c₁ := by
  refine Relation.ReflTransGen.mono (fun a b hab => ?_) c c₁ h
  cases hab with
  | tables h => exact .tables h
  | context x => exact .context x
  | object h => exact .object h
  | pointer p => exact .pointer p
  | link x y => exact .link x y
  | push h => exact .push h
  | method m => exact .method m
  | entry m => exact .entry m
  | site m s => exact .site m s
  | record hd => exact hd.elim
  | watch hd => exact hd.elim
  | note h => exact .note h

theorem items (h : Edits D c c₁) : ∃ more, c₁.worklist.items = c.worklist.items ++ more := by
  induction h with
  | refl => exact ⟨[], (List.append_nil _).symm⟩
  | tail _ h ih =>
    obtain ⟨more₁, h₁⟩ := ih
    obtain ⟨more₂, h₂⟩ := h.items
    exact ⟨more₁ ++ more₂, by rw [h₂, h₁, List.append_assoc]⟩

theorem due (h : Edits D c c₁) (hf : c.Due f) : c₁.Due f := by
  refine hf.imp (h.grows.holds f) ?_
  rintro ⟨i, hi, hif⟩
  obtain ⟨more, hmore⟩ := h.items
  exact ⟨i, hmore ▸ List.mem_append_left more hi, hif⟩

end Edits

/-! ### What is put on record -/

/-- Only taking up an item of the worklist lets a pointer refer to further objects. -/
theorem Edit.holds_points (h : Edit D c c₁) (p : Pointer) (o : Obj) :
    c₁.Holds (.points p o) ↔ c.Holds (.points p o) := by
  have hadds : ∀ {F : Fact → Prop}, Adds F c c₁ →
      (c₁.Holds (.points p o) ↔ c.Holds (.points p o)) :=
    fun h => h.holds_iff_of_isWork (f := .points p o) trivial
  cases h with
  | tables | context | object | push | method | entry | site | record | watch | note => rfl
  | pointer p => exact hadds (adds_addPointer c p)
  | link a b => exact hadds (adds_link c a b)

theorem Edit.watchers (h : Edit D c c₁) {p : Pointer} {s : StmtId} (hs : s ∈ c₁.watchers.get p) :
    s ∈ c.watchers.get p ∨ D (.watch p s) := by
  cases h with
  | tables | context | object | pointer | push | method | entry | site | record | note =>
    exact .inl hs
  | link a b =>
    have hset := c.setting_link a b
    simp only [setting, Prod.mk.injEq] at hset
    exact .inl (hset.2.2.2.1 ▸ hs)
  | @watch p' s' st hd =>
    replace hs : s ∈ (c.watchers.update p' default (· ++ [s'])).get p := hs
    rw [Table.get_update_default] at hs
    split at hs <;> rename_i hp
    · subst hp
      rcases List.mem_append.1 hs with hs | hs
      · exact .inl hs
      · rw [List.mem_singleton.1 hs]
        exact .inr hd
    · exact .inl hs

theorem Edit.calls (h : Edit D c c₁) {m : CtxMethod} {e : CtxEdge} (he : c₁.Holds (.edge m e)) :
    c.Holds (.edge m e) ∨ D (.record m e) := by
  cases h with
  | tables | context | object | pointer | push | method | entry | site | watch | note =>
    exact .inl he
  | link a b => exact .inl (((adds_link c a b).holds_iff_of_isWork (f := .edge m e) trivial).1 he)
  | @record m' e' hd =>
    rcases (c.holds_addEdge m' e' _).1 he with he | ⟨-, heq | heq | heq⟩
    · exact .inl he
    · cases heq
      exact .inr hd
    · cases heq
    · cases heq

namespace Edits

theorem holds_points (h : Edits D c c₁) (p : Pointer) (o : Obj) :
    c₁.Holds (.points p o) ↔ c.Holds (.points p o) := by
  induction h with
  | refl => rfl
  | tail _ h ih => exact (h.holds_points p o).trans ih

theorem watchers (h : Edits D c c₁) {p : Pointer} {s : StmtId} (hs : s ∈ c₁.watchers.get p) :
    s ∈ c.watchers.get p ∨ D (.watch p s) := by
  induction h with
  | refl => exact .inl hs
  | tail _ h ih => exact (h.watchers hs).elim ih .inr

theorem calls (h : Edits D c c₁) {m : CtxMethod} {e : CtxEdge} (he : c₁.Holds (.edge m e)) :
    c.Holds (.edge m e) ∨ D (.record m e) := by
  induction h with
  | refl => exact .inl he
  | tail _ h ih => exact (h.calls he).elim ih .inr

end Edits

/-! ### Well-formed states -/

/-- The parts of a state agree with each other. -/
structure WellFormed (c : Core) : Prop where
  sound : c.elements.Sound
  indexed : c.analysis.heap.Indexed
  /-- Objects come from allocations of their types. -/
  typed : ∀ o ty, c.analysis.heap.objs.find? o = some ty →
    ∃ lhs, c.elements.Has o.site (.alloc lhs ty)
  calls : c.analysis.calls.Consistent
  /-- The statements that wait for objects are there. -/
  watched : ∀ p, ∀ s ∈ c.watchers.get p, ∃ st, c.elements.Has s st
  closed : c.FlowClosed
  admits : ∀ f, c.Due f → c.Admits f

namespace WellFormed

/-- Facts are added, and the rest stays as it is. -/
theorem adds (h : c.WellFormed) {F : Fact → Prop} (ha : Adds F c c₁) (hs : c₁.setting = c.setting)
    (hindexed : c₁.analysis.heap.Indexed) (hcalls : c₁.analysis.calls.Consistent)
    (hF : ∀ f, F f → c₁.Admits f) : c₁.WellFormed := by
  have hgrows := Grows.of_adds ha hs
  simp only [setting, Prod.mk.injEq] at hs
  obtain ⟨-, -, -, hwatchers, helements, hobjs⟩ := hs
  refine ⟨helements ▸ h.sound, hindexed, fun o ty ho => ?_, hcalls, fun p s hs => ?_,
    ha.closed h.closed, fun f hf => ?_⟩
  · rw [helements]
    exact h.typed o ty (hobjs ▸ ho)
  · rw [helements]
    exact h.watched p s (hwatchers ▸ hs)
  · rcases ha.due_cases hf with hf | hf | ⟨a, b, o, rfl, hab, ho⟩
    · exact hgrows.admits (h.admits f hf)
    · exact hF f hf
    · exact ⟨ha.target a b hab, hgrows.mem_objs (h.admits _ (.inl ho)).2⟩

/-- A state with the same facts. -/
theorem same (h : c.WellFormed) (hgrows : c.Grows c₁) (hh : ∀ f, c₁.Holds f ↔ c.Holds f)
    (hi : c₁.worklist.items = c.worklist.items) (hheap : c₁.analysis.heap.Indexed)
    (htyped : ∀ o ty, c₁.analysis.heap.objs.find? o = some ty →
      ∃ lhs, c₁.elements.Has o.site (.alloc lhs ty))
    (hcalls : c₁.analysis.calls.Consistent)
    (hwatched : ∀ p, ∀ s ∈ c₁.watchers.get p, ∃ st, c₁.elements.Has s st) : c₁.WellFormed := by
  have hdue : ∀ f, c₁.Due f ↔ c.Due f := fun f => by rw [Due, Due, Awaits, Awaits, hh, hi]
  refine ⟨hgrows.elements.sound h.sound, hheap, htyped, hcalls, hwatched, fun a b o hab ho => ?_,
    fun f hf => hgrows.admits (h.admits f ((hdue f).1 hf))⟩
  exact (hdue _).2 (h.closed a b o ((hh _).1 hab) ((hh _).1 ho))

theorem edit (h : c.WellFormed) (he : Edit D c c₁) : c₁.WellFormed := by
  have hgrows := he.grows
  cases he with
  | tables he =>
    refine h.same hgrows (holds_withElements c _) rfl h.indexed (fun o ty ho => ?_) h.calls
      fun p s hs => ?_
    · exact (h.typed o ty ho).imp fun lhs hlhs => he.grows.has hlhs
    · exact (h.watched p s hs).imp fun st hst => he.grows.has hst
  | context x =>
    exact h.adds (adds_useContext c x) rfl h.indexed h.calls (fun _ hf => hf.elim)
  | @object o ty lhs hst =>
    refine h.same hgrows (fun f => by cases f <;> rfl) rfl h.indexed (fun o' ty' ho' => ?_) h.calls
      h.watched
    replace ho' : (c.analysis.heap.objs.insert o ty).find? o' = some ty' := ho'
    rw [Table.find?_insert] at ho'
    split at ho' <;> rename_i heq
    · subst heq
      -- an object that is there keeps its type
      cases hf : c.analysis.heap.objs.find? o' with
      | none =>
        rw [hf] at ho'
        cases ho'
        exact ⟨lhs, hst⟩
      | some ty₀ =>
        rw [hf] at ho'
        cases ho'
        exact h.typed o' ty₀ hf
    · exact h.typed o' ty' ho'
  | pointer p =>
    exact h.adds (adds_addPointer c p) (c.setting_addPointer p) (h.indexed.addPointer p) h.calls
      (fun _ hf => hf.elim)
  | link a b =>
    have hadds := adds_link c a b
    refine h.adds hadds (c.setting_link a b) ?_ ?_ ?_
    · rw [analysis_link]
      exact (h.indexed.addPointer a).addPointer b
    · rw [analysis_link]
      exact h.calls
    · rintro f rfl
      exact hadds.target a b rfl
  | push hi =>
    exact h.adds (adds_push c _) rfl h.indexed h.calls fun f hf => hgrows.admits (hi f hf)
  | method m =>
    refine h.adds (adds_addMethod c m) rfl h.indexed (h.calls.addMethod m) ?_
    rintro f rfl
    trivial
  | entry m =>
    refine h.adds (adds_addEntry c m) rfl h.indexed (h.calls.addEntry m) ?_
    rintro f rfl
    trivial
  | site m s =>
    refine h.adds (adds_addSite c m s) rfl h.indexed (h.calls.addSite m s) ?_
    rintro f rfl
    trivial
  | @record m e _ hfit =>
    refine ⟨h.sound, h.indexed, h.typed, h.calls.addEdge m e, h.watched, fun a b o hab ho => ?_, ?_⟩
    · have hab' : c.Holds (.flow a b) := hab
      have ho' : c.Holds (.points a o) := ho
      exact (h.closed a b o hab' ho').imp (hgrows.holds _) id
    · rintro f (hf | hf)
      · rcases (c.holds_addEdge m e f).1 hf with hf | ⟨-, rfl | rfl | rfl⟩
        · exact hgrows.admits (h.admits f (.inl hf))
        · exact hfit
        · trivial
        · trivial
      · exact hgrows.admits (h.admits f (.inr hf))
  | @watch p s st _ hst =>
    refine h.same hgrows (fun f => by cases f <;> rfl) rfl h.indexed h.typed h.calls
      fun p' s' hs' => ?_
    replace hs' : s' ∈ (c.watchers.update p default (· ++ [s])).get p' := hs'
    rw [Table.get_update_default] at hs'
    split at hs'
    · rcases List.mem_append.1 hs' with hs' | hs'
      · exact h.watched p s' hs'
      · rw [List.mem_singleton.1 hs']
        exact ⟨st, hst⟩
    · exact h.watched p' s' hs'
  | note =>
    exact h.same hgrows (fun f => by cases f <;> rfl) rfl h.indexed h.typed h.calls h.watched

theorem edits (h : c.WellFormed) (he : Edits D c c₁) : c₁.WellFormed := by
  induction he with
  | refl => exact h
  | tail _ he ih => exact ih.edit he

end WellFormed

/-! ### Items of the worklist -/

theorem grows_remain (c : Core) (items : List WorkItem) : c.Grows (c.remain items) :=
  ⟨.refl, rfl, fun f => (holds_remain c items f).2, fun _ _ => id, fun _ => id, fun _ _ => id,
    fun _ => id⟩

/-- What an item brings is due as long as it is on the worklist. -/
theorem due_of_items {l₁ l₂ : List WorkItem} {i : WorkItem}
    (hitems : c.worklist.items = l₁ ++ i :: l₂) (hf : i.Carries f) : c.Due f :=
  .inr ⟨i, hitems ▸ List.mem_append_right l₁ List.mem_cons_self, hf⟩

/-- An item is taken from the worklist whose objects have arrived. -/
theorem WellFormed.remain (h : c.WellFormed) {l₁ l₂ : List WorkItem} {i : WorkItem}
    (hitems : c.worklist.items = l₁ ++ i :: l₂)
    (hi : ∀ p o, i.Carries (.points p o) → c.Holds (.points p o)) :
    (c.remain (l₁ ++ l₂)).WellFormed := by
  have hold : ∀ f, (c.remain (l₁ ++ l₂)).Holds f ↔ c.Holds f := holds_remain c _
  refine ⟨h.sound, h.indexed, h.typed, h.calls, h.watched, fun a b o hab ho => ?_, fun f hf => ?_⟩
  · rcases h.closed a b o ((hold _).1 hab) ((hold _).1 ho) with hb | ⟨j, hj, hc⟩
    · exact .inl ((hold _).2 hb)
    · rw [hitems, List.mem_append, List.mem_cons, ← or_assoc, or_right_comm] at hj
      rcases hj with hj | rfl
      · exact .inr ⟨j, List.mem_append.2 hj, hc⟩
      · -- what waited in the item itself has arrived
        exact .inl ((hold _).2 (hi b o hc))
  · refine (grows_remain c _).admits (h.admits f (hf.imp (hold f).1 ?_))
    rintro ⟨j, hj, hc⟩
    refine ⟨j, ?_, hc⟩
    rw [hitems, List.mem_append, List.mem_cons, ← or_assoc, or_right_comm]
    exact .inl (List.mem_append.1 hj)

theorem setting_arrive (c : Core) (p : Pointer) (os sent : PointsToSet) :
    (c.arrive p os sent).setting = c.setting := by
  rw [arrive, foldl_push_objects]
  rfl

theorem grows_arrive {p : Pointer} (hp : p ∈ c.analysis.heap.pointers.keys)
    (os sent : PointsToSet) : c.Grows (c.arrive p os sent) := by
  have hs := c.setting_arrive p os sent
  simp only [setting, Prod.mk.injEq] at hs
  obtain ⟨hpolicy, -, hignored, hwatchers, helements, hobjs⟩ := hs
  exact ⟨helements ▸ .refl, hpolicy, fun f hf => (holds_arrive hp os sent f).2 (.inl hf),
    fun o ty ho => hobjs ▸ ho, (keeps_arrive c p os sent).pointers, fun p s hs => hwatchers ▸ hs,
    fun m hm => hignored ▸ hm⟩

/-- Objects arrive at a pointer, and those that are new to it are sent on. -/
theorem WellFormed.arrive (h : c.WellFormed) {p : Pointer} {os : PointsToSet}
    (hp : p ∈ c.analysis.heap.pointers.keys) (hos : ∀ o ∈ os, o ∈ c.analysis.heap.objs.keys) :
    (c.arrive p os (os.diff (c.pointsTo p))).WellFormed := by
  have hgrows := grows_arrive hp os (os.diff (c.pointsTo p))
  have hholds := holds_arrive hp os (os.diff (c.pointsTo p))
  have hitems := items_arrive c p os (os.diff (c.pointsTo p))
  have hs := c.setting_arrive p os (os.diff (c.pointsTo p))
  have hindexed : (c.arrive p os (os.diff (c.pointsTo p))).analysis.heap.Indexed := by
    intro v p'
    rw [Core.arrive, foldl_push_objects]
    show _ ↔ p' ∈ (c.analysis.heap.pointers.modify p _).keys ∧ _
    rw [Table.keys_modify]
    exact h.indexed v p'
  have hcalls : (c.arrive p os (os.diff (c.pointsTo p))).analysis.calls = c.analysis.calls := by
    rw [Core.arrive, foldl_push_objects]
    rfl
  set c₁ := c.arrive p os (os.diff (c.pointsTo p))
  have hdue : ∀ f, c.Due f → c₁.Due f := by
    rintro f (hf | ⟨i, hi, hif⟩)
    · exact .inl (hgrows.holds f hf)
    · exact .inr ⟨i, hitems ▸ List.mem_append_left _ hi, hif⟩
  simp only [setting, Prod.mk.injEq] at hs
  obtain ⟨-, -, -, hwatchers, helements, hobjs⟩ := hs
  refine ⟨helements ▸ h.sound, hindexed, fun o ty ho => ?_, hcalls ▸ h.calls, fun p s hs => ?_,
    fun a b o hab ho => ?_, ?_⟩
  · rw [helements]
    exact h.typed o ty (hobjs ▸ ho)
  · rw [helements]
    exact h.watched p s (hwatchers ▸ hs)
  · have hflow : c.Holds (.flow a b) := by
      rcases (hholds _).1 hab with hflow | ⟨_, _, heq⟩
      · exact hflow
      · cases heq
    rcases (hholds _).1 ho with ho | ⟨o', ho', heq⟩
    · exact hdue _ (h.closed a b o hflow ho)
    · cases heq
      -- an object that was there has been sent on before, a new one is sent on now
      by_cases hold : c.Holds (.points p o)
      · exact hdue _ (h.closed p b o hflow hold)
      · refine .inr ⟨.objects b (os.diff (c.pointsTo p)), ?_,
          .points (OrderedSet.mem_diff.2 ⟨ho', hold⟩)⟩
        rw [hitems]
        exact List.mem_append_right _ (List.mem_map_of_mem (FlowGraph.hasEdge_iff.1 hflow))
  · rintro f (hf | ⟨i, hi, hif⟩)
    · rcases (hholds f).1 hf with hf | ⟨o, ho, rfl⟩
      · exact hgrows.admits (h.admits f (.inl hf))
      · exact hgrows.admits (f := .points p o) ⟨hp, hos o ho⟩
    · rw [hitems, List.mem_append] at hi
      rcases hi with hi | hi
      · exact hgrows.admits (h.admits f (.inr ⟨i, hi, hif⟩))
      · -- the new items go to the ends of edges, and these are pointers
        obtain ⟨b, hb, rfl⟩ := List.mem_map.1 hi
        have hflow : c.Admits (.flow p b) := h.admits _ (.inl (FlowGraph.hasEdge_iff.2 hb))
        cases hif with
        | @points _ _ o ho =>
          exact hgrows.admits (f := .points b o) ⟨hflow, hos o (OrderedSet.mem_diff.1 ho).1⟩

/-- Objects arrive that were on the worklist. -/
theorem WellFormed.take (h : c.WellFormed) {l₁ l₂ : List WorkItem} {p : Pointer} {os : PointsToSet}
    (hitems : c.worklist.items = l₁ ++ .objects p os :: l₂)
    (hp : p ∈ c.analysis.heap.pointers.keys) :
    ((c.remain (l₁ ++ l₂)).arrive p os (os.diff (c.pointsTo p))).WellFormed ∧
      c.Grows ((c.remain (l₁ ++ l₂)).arrive p os (os.diff (c.pointsTo p))) := by
  refine ⟨?_, (grows_remain c (l₁ ++ l₂)).trans (grows_arrive (c := c.remain (l₁ ++ l₂)) hp os _)⟩
  have hos : ∀ o ∈ os, o ∈ c.analysis.heap.objs.keys := fun o ho =>
    (h.admits (.points p o) (due_of_items hitems (.points ho))).2
  have harrive := h.arrive hp hos
  have hholds := holds_arrive hp os (os.diff (c.pointsTo p))
  have hsent := items_arrive c p os (os.diff (c.pointsTo p))
  rw [hitems, List.append_assoc, List.cons_append] at hsent
  -- the item may as well be taken away after the objects have arrived
  have hcomm : (c.remain (l₁ ++ l₂)).arrive p os (os.diff (c.pointsTo p)) =
      (c.arrive p os (os.diff (c.pointsTo p))).remain
        (l₁ ++ (l₂ ++ (c.flow.succsOf p).toList.map (.objects · (os.diff (c.pointsTo p))))) := by
    simp [Core.arrive, foldl_push_objects, Core.remain, extend]
  rw [hcomm]
  refine harrive.remain hsent ?_
  rintro p' o ⟨ho⟩
  exact (hholds _).2 (.inr ⟨o, ho, rfl⟩)

/-! ### Looking up results -/

section

variable {v : VarId} {o : Obj} {s : StmtId}

/-- The objects of a variable are those in its pointers, in whatever contexts. -/
theorem WellFormed.mem_pointsToVar (h : c.WellFormed) :
    o ∈ c.analysis.pointsToVar v ↔ ∃ ctx, o ∈ c.analysis.heap.pointsTo (.var ctx v) := by
  rw [Analysis.pointsToVar, Heap.inOrder, List.mem_filter, List.any_map, List.any_eq_true]
  simp only [h.indexed v, Function.comp_apply, decide_eq_true_eq]
  constructor
  · rintro ⟨-, p, ⟨-, ctx, rfl⟩, ho⟩
    exact ⟨ctx, ho⟩
  · rintro ⟨ctx, ho⟩
    obtain ⟨hp, hobj⟩ := h.admits (.points (.var ctx v) o) (.inl ho)
    exact ⟨hobj, _, ⟨hp, ctx, rfl⟩, ho⟩

/-- Objects come from allocations in the tables. -/
theorem WellFormed.site_mem_stmts (h : c.WellFormed) (ho : o ∈ c.analysis.heap.objs.keys) :
    o.site ∈ c.elements.stmts := by
  cases hty : c.analysis.heap.objs.find? o with
  | none => exact absurd ho (Table.find?_eq_none_iff.1 hty)
  | some ty =>
    obtain ⟨lhs, hst⟩ := h.typed o ty hty
    exact h.sound.listed _ _ hst

theorem WellFormed.mem_allocSites (h : c.WellFormed) : s ∈ c.analysis.allocSites v ↔
    ∃ ctx, ∃ o ∈ c.analysis.heap.pointsTo (.var ctx v), o.site = s := by
  rw [Analysis.allocSites, List.mem_filter, decide_eq_true_eq, List.mem_map]
  simp only [h.mem_pointsToVar]
  constructor
  · rintro ⟨-, o, ⟨ctx, ho⟩, rfl⟩
    exact ⟨ctx, o, ho, rfl⟩
  · rintro ⟨ctx, o, ho, rfl⟩
    have hobj := (h.admits (.points (.var ctx v) o) (.inl ho)).2
    exact ⟨h.site_mem_stmts hobj, o, ⟨ctx, ho⟩, rfl⟩

end

end Core

end PointsTo
