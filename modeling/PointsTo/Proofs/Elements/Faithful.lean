import PointsTo.Elements.Basic
import PointsTo.Proofs.Code.Lookup

/-!
# Faithful element tables

As long as only the solver works on them, the element tables hold nothing but what the program
says (`Elements.Faithful`): the code of a method is the one that lowering makes, or the method was
not lowered yet, and the answers in the memo are those of the class hierarchy.

* `Elements.Faithful.lower` and `Elements.Faithful.dispatch`: lowering and dispatching keep it;
* `Elements.lower_spec`: lowering a method for the first time fails or not as `Program.lowering`
  says, later it succeeds;
* in faithful tables, looking up a statement, a call site or a variable of a method that was lowered
  gives what the program says.
-/

namespace PointsTo

namespace Elements

/-- The code and the memo are those of the program. -/
structure Faithful (e : Elements) : Prop where
  code_eq : ∀ m, e.code m = if e.isBuilt m then e.program.code m else {}
  memo_eq : ∀ t sub a, e.dispatched.find? (t, sub) = some a → a = e.program.dispatch? t sub

/-- The answers in the memo are those of the class hierarchy. -/
def MemoRight (e : Elements) : Prop :=
  ∀ t sub a, e.dispatched.find? (t, sub) = some a → a = e.program.dispatch? t sub

variable {e : Elements} {m : MethodId}

/-! ### Entering entities keeps the code -/

theorem code_addMethod (e : Elements) (m m' : MethodId) : (e.addMethod m).code m' = e.code m' := by
  unfold addMethod
  split
  · rfl
  · exact Table.get_insert_default e.methods m m'

theorem code_addField (e : Elements) (f : FieldId) (m : MethodId) :
    (e.addField f).code m = e.code m := by
  unfold addField
  split <;> rfl

theorem code_mention (e : Elements) (x : Mention) (m : MethodId) :
    (e.mention x).code m = e.code m := by
  cases x with
  | type t => rfl
  | method m' => exact code_addMethod e m' m
  | field f => exact code_addField e f m

/-- Entering entities changes neither the program nor the memo nor code, and keeps methods. -/
theorem mention_frame (e : Elements) (x : Mention) :
    (e.mention x).program = e.program ∧ (e.mention x).dispatched = e.dispatched ∧
      ∀ m ∈ e.methods.keys, m ∈ (e.mention x).methods.keys := by
  cases x with
  | type t => exact ⟨rfl, rfl, fun _ => id⟩
  | method m' =>
    simp only [mention, addMethod]
    split
    · exact ⟨rfl, rfl, fun _ => id⟩
    · exact ⟨rfl, rfl, fun m hm => Table.mem_keys_insert.2 (.inl hm)⟩
  | field f =>
    simp only [mention, addField]
    split <;> exact ⟨rfl, rfl, fun _ => id⟩

theorem foldl_mention_frame (l : List Mention) (e : Elements) :
    (l.foldl mention e).program = e.program ∧ (l.foldl mention e).dispatched = e.dispatched ∧
      (∀ m, (l.foldl mention e).code m = e.code m) ∧
      ∀ m ∈ e.methods.keys, m ∈ (l.foldl mention e).methods.keys := by
  induction l generalizing e with
  | nil => exact ⟨rfl, rfl, fun _ => rfl, fun _ => id⟩
  | cons x l ih =>
    obtain ⟨hp, hd, hc, hk⟩ := ih (e.mention x)
    obtain ⟨hp', hd', hk'⟩ := e.mention_frame x
    exact ⟨hp.trans hp', hd.trans hd', fun m => (hc m).trans (e.code_mention x m),
      fun m hm => hk m (hk' m hm)⟩

theorem mem_keys_addMethod (e : Elements) (m : MethodId) : m ∈ (e.addMethod m).methods.keys := by
  unfold addMethod
  split <;> rename_i h
  · exact Table.contains_iff.1 h
  · exact Table.mem_keys_insert.2 (.inr rfl)

theorem addMethod_frame (e : Elements) (m : MethodId) :
    (e.addMethod m).program = e.program ∧ (e.addMethod m).dispatched = e.dispatched := by
  unfold addMethod
  split <;> exact ⟨rfl, rfl⟩

theorem code_modifyCode (e : Elements) {m : MethodId} (hm : m ∈ e.methods.keys) (f : Code → Code)
    (m' : MethodId) :
    (e.modifyCode m f).code m' = if m' = m then f (e.code m) else e.code m' := by
  show (e.methods.modify m f).get m' = _
  rw [Table.get_modify]
  simp [hm, code]

/-! ### Lowering -/

/-- The tables after a draft of the code of `m` was worked on: only that code has changed. -/
theorem code_draft {α : Type} (e : Elements) (m : MethodId) (x : Drafting α) (m' : MethodId) :
    (e.draft m x).2.code m' = if m' = m then (x { code := e.code m }).2.code else e.code m' := by
  obtain ⟨-, -, hc, hk⟩ := foldl_mention_frame (x { code := (e.addMethod m).code m }).2.mentions
    (e.addMethod m)
  have hm := hk m (e.mem_keys_addMethod m)
  refine (code_modifyCode _ hm _ m').trans ?_
  rw [hc, code_addMethod, code_addMethod]

theorem draft_frame {α : Type} (e : Elements) (m : MethodId) (x : Drafting α) :
    (e.draft m x).2.program = e.program ∧ (e.draft m x).2.dispatched = e.dispatched := by
  obtain ⟨hp, hd, -, -⟩ := foldl_mention_frame (x { code := (e.addMethod m).code m }).2.mentions
    (e.addMethod m)
  exact ⟨hp.trans (e.addMethod_frame m).1, hd.trans (e.addMethod_frame m).2⟩

theorem code_of_built (h : e.Faithful) (hm : e.isBuilt m = true) : e.code m = e.program.code m := by
  rw [h.code_eq, if_pos hm]

/-- The tables in which the lowering of a method starts. -/
def opened (e : Elements) (m : MethodId) : Elements :=
  (e.addMethod m).modifyCode m fun c => { c with built := true }

theorem isBuilt_addMethod (e : Elements) (m : MethodId) :
    (e.addMethod m).isBuilt m = e.isBuilt m :=
  congrArg Code.built (code_addMethod e m m)

theorem code_opened (e : Elements) (m m' : MethodId) :
    (e.opened m).code m' = if m' = m then { e.code m with built := true } else e.code m' := by
  rw [opened, code_modifyCode _ (e.mem_keys_addMethod m), code_addMethod, code_addMethod]

/-- Lowering starts on the code that is there. -/
theorem run_opened (e : Elements) (m : MethodId) :
    (Lower.method (e.opened m).program m).run { code := ((e.opened m).addMethod m).code m } =
      (Lower.method e.program m).run { code := { e.code m with built := true } } := by
  have hp : (e.opened m).program = e.program := (e.addMethod_frame m).1
  rw [code_addMethod, code_opened, if_pos rfl, hp]

/-- The code of a method that was not lowered is empty, so lowering starts on fresh code. -/
theorem run_opened_of_faithful (h : e.Faithful) (hm : ¬ e.isBuilt m = true) :
    (Lower.method (e.opened m).program m).run { code := ((e.opened m).addMethod m).code m } =
      e.program.lowering m := by
  rw [run_opened, h.code_eq m, if_neg hm]
  rfl

/-- What lowering a method does to faithful tables. -/
theorem lower_spec (h : e.Faithful) (m : MethodId) :
    (e.lower m).2.program = e.program ∧ (e.lower m).2.dispatched = e.dispatched ∧
      (e.lower m).1 = (if e.isBuilt m then .ok () else (e.program.lowering m).1) ∧
      ∀ m', (e.lower m).2.code m' = if m' = m then e.program.code m else e.code m' := by
  unfold lower
  simp only [isBuilt_addMethod]
  split <;> rename_i hm
  · obtain ⟨hp, hd⟩ := e.addMethod_frame m
    refine ⟨hp, hd, rfl, fun m' => ?_⟩
    rw [code_addMethod]
    split
    · subst m'
      exact code_of_built h hm
    · rfl
  · have hrun := run_opened_of_faithful h hm
    refine ⟨(draft_frame (e.opened m) m _).1.trans (e.addMethod_frame m).1,
      (draft_frame (e.opened m) m _).2.trans (e.addMethod_frame m).2, congrArg Prod.fst hrun,
      fun m' => (code_draft (e.opened m) m _ m').trans ?_⟩
    rw [e.code_opened m m']
    split
    · rw [code_addMethod] at hrun
      exact congrArg (fun r => r.2.code) hrun
    · rfl

theorem isBuilt_lower (h : e.Faithful) (m m' : MethodId) :
    (e.lower m).2.isBuilt m' = true ↔ m' = m ∨ e.isBuilt m' = true := by
  rw [isBuilt, (lower_spec h m).2.2.2]
  split <;> rename_i hm
  · simp [hm, Program.built_code]
  · simp [hm, isBuilt]

theorem Faithful.lower (h : e.Faithful) (m : MethodId) : (e.lower m).2.Faithful := by
  obtain ⟨hp, hd, -, hc⟩ := lower_spec h m
  refine ⟨fun m' => ?_, fun t sub a ha => ?_⟩
  · rw [hc, hp]
    by_cases hm : m' = m
    · rw [if_pos hm, if_pos ((isBuilt_lower h m m').2 (.inl hm)), hm]
    · have hb := isBuilt_lower h m m'
      rw [if_neg hm, h.code_eq m']
      simp only [hb, hm, false_or]
  · rw [hd] at ha
    rw [hp]
    exact h.memo_eq t sub a ha

/-! ### Dispatching -/

/-- A right answer can be added to the memo. -/
theorem memo_insert (h : e.MemoRight) {t t' : Ty} {sub sub' : String} {a : Option MethodId}
    (hnone : e.dispatched.find? (t, sub) = none)
    (ha : (e.dispatched.insert (t, sub) (e.program.dispatch? t sub)).find? (t', sub') = some a) :
    a = e.program.dispatch? t' sub' := by
  rw [Table.find?_insert] at ha
  split at ha <;> rename_i hk
  · cases hk
    rw [hnone] at ha
    exact (Option.some.inj ha).symm
  · exact h t' sub' a ha

/-- What dispatching does to tables with a right memo. -/
theorem dispatch_spec (h : e.MemoRight) (t : Ty) (sub : String) :
    (e.dispatch t sub).1 = e.program.dispatch? t sub ∧
      (e.dispatch t sub).2.program = e.program ∧
      (∀ m, (e.dispatch t sub).2.code m = e.code m) ∧
      ∀ t' sub' a, (e.dispatch t sub).2.dispatched.find? (t', sub') = some a →
        a = e.program.dispatch? t' sub' := by
  unfold dispatch
  simp only
  split
  · rename_i a ha
    exact ⟨h t sub a ha, rfl, fun _ => rfl, h⟩
  · rename_i hnone
    cases hd : (e.addType t).program.dispatch? t sub with
    | none =>
      have hd' : none = e.program.dispatch? t sub := hd.symm
      exact ⟨hd', rfl, fun _ => rfl, fun t' sub' a ha => memo_insert h hnone (hd' ▸ ha)⟩
    | some m =>
      have hd' : some m = e.program.dispatch? t sub := hd.symm
      obtain ⟨hp, hm⟩ := (e.addType t).addMethod_frame m
      refine ⟨hd', hp, code_addMethod (e.addType t) m, fun t' sub' a ha => ?_⟩
      simp only [hm] at ha
      exact memo_insert h hnone (hd' ▸ ha)

theorem Faithful.dispatch (h : e.Faithful) (t : Ty) (sub : String) :
    (e.dispatch t sub).2.Faithful := by
  obtain ⟨-, hp, hc, hm⟩ := dispatch_spec h.memo_eq t sub
  refine ⟨fun m => ?_, fun t' sub' a ha => ?_⟩
  · rw [isBuilt, hc, hp]
    exact h.code_eq m
  · rw [hp]
    exact hm t' sub' a ha

theorem isBuilt_dispatch (h : e.Faithful) (t : Ty) (sub : String) (m : MethodId) :
    (e.dispatch t sub).2.isBuilt m = e.isBuilt m :=
  congrArg Code.built ((dispatch_spec h.memo_eq t sub).2.2.1 m)

/-! ### Fresh tables -/

/-- The tables of a program after some methods were entered. -/
def fresh (p : Program) (ms : List MethodId) : Elements := ms.foldl addMethod { program := p }

theorem fresh_spec (p : Program) (ms : List MethodId) :
    (fresh p ms).program = p ∧ (fresh p ms).dispatched = ∅ ∧ ∀ m, (fresh p ms).code m = {} := by
  suffices h : ∀ e : Elements, (ms.foldl addMethod e).program = e.program ∧
      (ms.foldl addMethod e).dispatched = e.dispatched ∧
      ∀ m, (ms.foldl addMethod e).code m = e.code m from h { program := p }
  induction ms with
  | nil => exact fun e => ⟨rfl, rfl, fun _ => rfl⟩
  | cons m ms ih =>
    intro e
    obtain ⟨hp, hd, hc⟩ := ih (e.addMethod m)
    exact ⟨hp.trans (e.addMethod_frame m).1, hd.trans (e.addMethod_frame m).2,
      fun m' => (hc m').trans (e.code_addMethod m m')⟩

theorem not_isBuilt_fresh (p : Program) (ms : List MethodId) (m : MethodId) :
    ¬ (fresh p ms).isBuilt m = true := by
  rw [isBuilt, (fresh_spec p ms).2.2]
  exact Bool.false_ne_true

theorem Faithful.fresh (p : Program) (ms : List MethodId) : (fresh p ms).Faithful := by
  obtain ⟨hp, hd, hc⟩ := fresh_spec p ms
  refine ⟨fun m => by rw [hc, if_neg (not_isBuilt_fresh p ms m)], fun t sub a ha => ?_⟩
  rw [hd] at ha
  cases ha

/-! ### Looking up in faithful tables -/

theorem stmt?_eq (h : e.Faithful) {s : StmtId} (hs : e.isBuilt s.method = true) :
    (e.stmt? s).map PlacedStmt.stmt = e.program.stmt? s := by
  rw [stmt?, code_of_built h hs]
  rfl

theorem site_eq (h : e.Faithful) {s : SiteId} (hs : e.isBuilt s.method = true) :
    e.site s = e.program.site s := by
  rw [site, code_of_built h hs]
  rfl

theorem var_eq (h : e.Faithful) {v : VarId} (hv : e.isBuilt v.method = true) :
    e.var v = e.program.var v := by
  rw [var, code_of_built h hv]
  rfl

end Elements

end PointsTo
