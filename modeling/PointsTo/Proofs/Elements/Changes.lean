import Mathlib.Data.List.Nodup
import PointsTo.Proofs.Elements.Numbering

/-!
# What requests are made of

A request to the element tables makes changes of few kinds (`Elements.Change`): it enters entities,
changes or continues the code of a method, and puts answers in the memo. So what is to hold of all
tables that develop from others has to be shown for one such change (`Elements.Develops.changes`).

* `Code.sources`: the locals that the variables of a method stand for. They stay, whatever is done
  to the code (`Elements.Changes.sources_isPrefix`);
* `Elements.Listed`: the list of all variables has those of each method, each once;
* `Elements.Rooted`: a method is entered after the type of its class, a field after that of its
  class and its own type;
* `Elements.Changes.dispatched`: answers stay in the memo.
-/

namespace PointsTo

open Relation (ReflTransGen)

/-! ### The locals that variables stand for -/

theorem Var.source_register (x : Var) (role : Role) (s : StmtId) :
    (x.register role s).source = x.source := by
  cases role <;> rfl

/-- A note with a variable changes nothing else. -/
theorem Var.map_modify_register {β : Type} {f : Var → β}
    (hf : ∀ x role s, f (Var.register x role s) = f x) (l : List Var) (slot : Nat) (role : Role)
    (s : StmtId) : (l.modify slot (·.register role s)).map f = l.map f := by
  apply List.ext_getElem?
  intro i
  simp only [List.getElem?_map, List.getElem?_modify]
  cases l[i]? with
  | none => simp
  | some x =>
    by_cases hi : slot = i
    · simp [hi, hf]
    · simp [hi]

namespace Code

/-- The locals that the variables stand for. -/
def sources (c : Code) : List (Option LocalId) := c.vars.map Var.source

@[simp] theorem length_sources (c : Code) : c.sources.length = c.vars.length := List.length_map _

variable {m : MethodId} {c c₁ : Code}

/-- A note with a variable leaves its local alone. -/
theorem sources_of_modify {slot : Nat} {role : Role} {s : StmtId}
    (h : c₁.vars = c.vars.modify slot (·.register role s)) : c₁.sources = c.sources := by
  rw [sources, h, Var.map_modify_register Var.source_register, sources]

theorem sources_addStmt (c : Code) (m : MethodId) (s : Stmt) :
    (c.addStmt m s).sources = c.sources := by
  have hvars := c.vars_addStmt m s
  split at hvars
  · exact sources_of_modify hvars
  · exact congrArg (List.map Var.source) hvars

theorem Edits.sources_isPrefix (h : Edits m c c₁) : c.sources <+: c₁.sources := by
  induction h with
  | refl => exact List.prefix_refl _
  | tail _ h ih =>
    refine ih.trans ?_
    cases h with
    | var v =>
      simp only [sources, pushVar, List.map_append]
      exact List.prefix_append _ _
    | stmt | call => exact (sources_addStmt _ m _).symm ▸ List.prefix_refl _
    | temp | site | bodySite | interface => exact List.prefix_refl _

end Code

namespace Elements

variable {e e₁ e₂ : Elements} {m : MethodId}

/-! ### Changes -/

/-- One of the changes that requests are made of. -/
inductive Change (e : Elements) : Elements → Prop
  | mention (x : Mention) : Change e (e.mention x)
  /-- The code of a method is changed, and keeps its variables. -/
  | code (m : MethodId) {f : Code → Code} (h : ∀ c : Code, (f c).sources = c.sources) :
      Change e (e.modifyCode m f)
  /-- The code of a method is continued, and its further variables are listed. -/
  | extend {m : MethodId} {c : Code} (hm : m ∈ e.methods.keys)
      (h : (e.code m).sources <+: c.sources) :
      Change e { e.modifyCode m fun _ => c with
        vars := e.vars ++ (slots (e.code m).vars.length c.vars.length).map (VarId.mk m) }
  | lists (stmts : List StmtId) (sites : List SiteId) (log : Log) :
      Change e { e with stmts, sites, log }
  /-- A question that was not asked before gets its answer. -/
  | answer {t : Ty} {sub : String} (h : e.dispatched.find? (t, sub) = none)
      (a : Option MethodId) :
      Change e { e with dispatched := e.dispatched.insert (t, sub) a }

/-- The tables `e'` come from `e` by changes. -/
abbrev Changes : Elements → Elements → Prop := ReflTransGen Change

theorem changes_mention (e : Elements) (x : Mention) : e.Changes (e.mention x) :=
  .single (.mention x)

theorem changes_foldl_mention (l : List Mention) (e : Elements) :
    e.Changes (l.foldl Elements.mention e) := by
  induction l generalizing e with
  | nil => exact .refl
  | cons x l ih => exact (e.changes_mention x).trans (ih _)

theorem changes_draft {α : Type} {x : Drafting α} (e : Elements)
    (h : ∀ d, Code.Edits m d.code (x d).2.code) : e.Changes (e.draft m x).2 := by
  let d := (x { code := (e.addMethod m).code m }).2
  let e' := d.mentions.foldl Elements.mention (e.addMethod m)
  obtain ⟨-, -, hcode, hkeys⟩ := foldl_mention_frame d.mentions (e.addMethod m)
  have hmention : e.Changes e' := (e.changes_mention (.method m)).trans (changes_foldl_mention _ _)
  have hprefix : (e'.code m).sources <+: d.code.sources := by
    rw [hcode]
    exact (h { code := (e.addMethod m).code m }).sources_isPrefix
  have hextend := hmention.tail (.extend (hkeys m (e.mem_keys_addMethod m)) hprefix)
  rw [hcode] at hextend
  exact hextend.tail (.lists _ _ _)

theorem changes_own (e : Elements) (st : Stmt) (s : StmtId) : e.Changes (e.own st s) := by
  cases st with
  | alloc | assign | load | store => exact .refl
  | call site lhs => exact .single (.code _ fun _ => rfl)

theorem changes_note (e : Elements) (st : Stmt) (s : StmtId) : e.Changes (e.note st s) := by
  unfold note
  split
  · exact .single (.code _ fun _ => Code.sources_of_modify rfl)
  · exact .refl

theorem changes_place (e : Elements) (m : MethodId) (st : Stmt) (synthetic : Bool) :
    e.Changes (e.place m st synthetic) := by
  have hnoted : e.Changes (e.noted m st synthetic) := by
    unfold noted
    split
    · exact e.changes_own st _
    · exact (e.changes_own st _).trans (changes_note _ st _)
  rw [place_eq]
  exact (hnoted.tail (.code m (f := (·.pushStmt m st synthetic)) fun _ => rfl)).tail (.lists _ _ _)

theorem changes_addStmt (e : Elements) (m : MethodId) (st : Stmt) (synthetic : Bool) :
    e.Changes (e.addStmt m st synthetic).2 := by
  have hmention := (e.changes_mention (.method m)).trans (changes_foldl_mention st.mentions _)
  simp only [addStmt]
  split
  · exact hmention.trans (changes_place _ m st synthetic)
  · exact hmention

theorem changes_lower (e : Elements) (m : MethodId) : e.Changes (e.lower m).2 := by
  have hadd := e.changes_mention (.method m)
  simp only [lower]
  split
  · exact hadd
  · have hopen := hadd.tail (.code m (f := fun c => { c with built := true }) fun _ => rfl)
    exact hopen.trans (changes_draft _ (Lower.edits_method _))

theorem changes_dispatch (e : Elements) (t : Ty) (sub : String) :
    e.Changes (e.dispatch t sub).2 := by
  have hadd := e.changes_mention (.type t)
  simp only [dispatch]
  split
  · exact hadd
  · rename_i hnone
    cases (e.addType t).program.dispatch? t sub with
    | none => exact hadd.tail (.answer hnone none)
    | some m =>
      refine (hadd.tail (.mention (.method m))).tail (.answer ?_ (some m))
      exact ((e.addType t).addMethod_frame m).2 ▸ hnone

theorem changes_serve (e : Elements) (r : Request) : e.Changes (e.serve r).2 := by
  cases r with
  | type t => exact e.changes_mention (.type t)
  | method m => exact e.changes_mention (.method m)
  | field f => exact e.changes_mention (.field f)
  | localVar m l decl => exact e.changes_draft (Lower.edits_localVar l decl)
  | newVar m name ty => exact e.changes_draft (Lower.edits_newVar name ty none)
  | temp m base ty => exact e.changes_draft (Lower.edits_temp base ty)
  | addStmt m st synthetic => exact e.changes_addStmt m st synthetic
  | newSite m kind target receiver args =>
    exact e.changes_draft (Lower.edits_newSite kind target receiver args)
  | addCall m kind target receiver args lhs synthetic =>
    have hcall := (e.changes_draft (Lower.edits_newSite (m := m) kind target receiver args)).trans
      (changes_addStmt _ m (.call (e.newSite m kind target receiver args).1 lhs) synthetic)
    simp only [serve, addCall]
    split
    · exact hcall
    · exact hcall.tail (.code m (f := fun c => { c with bodySites := _ }) fun _ => rfl)
  | lower m => exact e.changes_lower m
  | resolve signature =>
    simp only [serve, resolve]
    split
    · exact .refl
    · split
      · exact .refl
      · exact e.changes_mention (.method _)
  | dispatch t sub => exact e.changes_dispatch t sub

theorem Develops.changes (h : e.Develops e₁) : e.Changes e₁ := by
  induction h with
  | refl => exact .refl
  | serve _ r ih => exact ih.trans (changes_serve _ r)
  | tell _ level text ih => exact ih.tail (.lists _ _ _)

/-! ### What changes keep -/

theorem Change.sources_isPrefix (h : e.Change e₁) (m : MethodId) :
    (e.code m).sources <+: (e₁.code m).sources := by
  cases h with
  | mention x => exact (e.code_mention x m).symm ▸ List.prefix_refl _
  | @code m' f hf =>
    rcases e.code_modifyCode_cases m' f m with hc | ⟨-, hc⟩
    · exact hc.symm ▸ List.prefix_refl _
    · exact hc.symm ▸ (hf (e.code m)).symm ▸ List.prefix_refl _
  | @extend m' c hm hc =>
    show _ <+: ((e.modifyCode m' fun _ => c).code m).sources
    rw [code_modifyCode e hm]
    split <;> rename_i heq
    · exact heq ▸ hc
    · exact List.prefix_refl _
  | lists | answer => exact List.prefix_refl _

/-- The variables of a method keep their locals. -/
theorem Changes.sources_isPrefix (h : e.Changes e₁) (m : MethodId) :
    (e.code m).sources <+: (e₁.code m).sources := by
  induction h with
  | refl => exact List.prefix_refl _
  | tail _ h ih => exact ih.trans (h.sources_isPrefix m)

/-- Answers stay in the memo. -/
theorem Changes.dispatched (h : e.Changes e₁) {k : Ty × String} {a : Option MethodId}
    (ha : e.dispatched.find? k = some a) : e₁.dispatched.find? k = some a := by
  induction h with
  | refl => exact ha
  | @tail e' e₂ _ h ih =>
    cases h with
    | mention x => rw [(e'.mention_frame x).2.1]; exact ih
    | code | extend | lists => exact ih
    | @answer t sub hnone b =>
      have hk : k ≠ (t, sub) := by
        rintro rfl
        cases hnone.symm.trans ih
      rw [Table.find?_insert, if_neg hk]
      exact ih

/-- The variables of all methods are listed, each once. -/
structure Listed (e : Elements) : Prop where
  nodup : e.vars.Nodup
  mem_iff : ∀ v, v ∈ e.vars ↔ v.slot < (e.code v.method).vars.length

theorem vars_mention (e : Elements) (x : Mention) : (e.mention x).vars = e.vars := by
  cases x with
  | type t => rfl
  | method m =>
    simp only [mention, addMethod]
    split <;> rfl
  | field f =>
    simp only [mention, addField]
    split <;> rfl

theorem nodup_slots (lo hi : Nat) : (slots lo hi).Nodup := by
  refine List.Nodup.map ?_ List.nodup_range
  intro i j hij
  simpa using hij

theorem Listed.of_eq (h : e.Listed) (hvars : e₁.vars = e.vars)
    (hlen : ∀ m, (e₁.code m).vars.length = (e.code m).vars.length) : e₁.Listed := by
  refine ⟨hvars ▸ h.nodup, fun v => ?_⟩
  rw [hvars, hlen]
  exact h.mem_iff v

theorem Listed.change (h : e.Listed) (hc : e.Change e₁) : e₁.Listed := by
  cases hc with
  | mention x => exact h.of_eq (e.vars_mention x) fun m => by rw [code_mention]
  | @code m f hf =>
    refine h.of_eq rfl fun m' => ?_
    rcases e.code_modifyCode_cases m f m' with hc | ⟨-, hc⟩
    · rw [hc]
    · rw [hc, ← Code.length_sources, hf, Code.length_sources]
  | @extend m c hm hc =>
    have hcode : ∀ m', (e.modifyCode m fun _ => c).code m' = if m' = m then c else e.code m' :=
      code_modifyCode e hm _
    have hle : (e.code m).vars.length ≤ c.vars.length := by
      simpa using hc.length_le
    refine ⟨?_, fun v => ?_⟩
    · refine List.nodup_append.2 ⟨h.nodup, List.Nodup.map ?_ (nodup_slots _ _), ?_⟩
      · intro i j hij
        cases hij
        rfl
      · rintro v hv w hw rfl
        obtain ⟨i, hi, rfl⟩ := List.mem_map.1 hw
        have hold := (h.mem_iff _).1 hv
        have hnew := (mem_slots.1 hi).1
        simp only at hold
        omega
    · show v ∈ e.vars ++ _ ↔ v.slot < ((e.modifyCode m fun _ => c).code v.method).vars.length
      rw [hcode, List.mem_append, h.mem_iff, List.mem_map]
      obtain ⟨m', i⟩ := v
      by_cases hm' : m' = m
      · subst hm'
        simp only [mem_slots, VarId.mk.injEq, true_and, exists_eq_right, if_true]
        omega
      · simp only [VarId.mk.injEq, hm', Ne.symm hm', false_and, and_false, exists_false, or_false,
          if_false]
  | lists | answer => exact h.of_eq rfl fun _ => rfl

theorem Changes.listed (h : e.Changes e₁) (he : e.Listed) : e₁.Listed := by
  induction h with
  | refl => exact he
  | tail _ h ih => exact ih.change h

/-- The types that the declarations of methods and fields name are entered with them. -/
structure Rooted (e : Elements) : Prop where
  method : ∀ m ∈ e.methods.keys, .cls (e.program.method m).owner ∈ e.types
  field : ∀ f ∈ e.fields,
    .cls (e.program.field f).owner ∈ e.types ∧ (e.program.field f).ty ∈ e.types

theorem Rooted.addType (h : e.Rooted) (t : Ty) : (e.addType t).Rooted where
  method m hm := OrderedSet.mem_insert.2 (.inl (h.method m hm))
  field f hf := (h.field f hf).imp (fun ht => OrderedSet.mem_insert.2 (.inl ht))
    fun ht => OrderedSet.mem_insert.2 (.inl ht)

theorem Rooted.mention (h : e.Rooted) (x : Mention) : (e.mention x).Rooted := by
  cases x with
  | type t => exact h.addType t
  | method m =>
    simp only [Elements.mention, addMethod]
    split
    · exact h
    · refine ⟨fun m' hm' => ?_, (h.addType _).field⟩
      rcases Table.mem_keys_insert.1 hm' with hm' | rfl
      · exact (h.addType _).method m' hm'
      · exact OrderedSet.mem_insert.2 (.inr rfl)
  | field f =>
    simp only [Elements.mention, addField]
    split
    · exact h
    · refine ⟨((h.addType _).addType _).method, fun f' hf' => ?_⟩
      rcases OrderedSet.mem_insert.1 hf' with hf' | rfl
      · exact ((h.addType _).addType _).field f' hf'
      · exact ⟨OrderedSet.mem_insert.2 (.inl (OrderedSet.mem_insert.2 (.inr rfl))),
          OrderedSet.mem_insert.2 (.inr rfl)⟩

theorem Changes.rooted (h : e.Changes e₁) (he : e.Rooted) : e₁.Rooted := by
  induction h with
  | refl => exact he
  | @tail e' e₂ _ h ih =>
    cases h with
    | mention x => exact ih.mention x
    | code m | extend =>
      refine ⟨fun m hm => ih.method m ?_, ih.field⟩
      rwa [← Table.keys_modify e'.methods]
    | lists | answer => exact ⟨ih.method, ih.field⟩

end Elements

end PointsTo
