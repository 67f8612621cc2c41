import PointsTo.Proofs.Elements.Growth

/-!
# Entries keep their numbers

The element tables number their entries in order of creation. Whoever works on them, an entry keeps
its number: every table is continued at its end (`Elements.Continues`). Together with what the
entries say (`Elements.Grows`) this makes up `Elements.Extends`, which holds between tables and
whatever develops from them (`Elements.Develops.extends`).
-/

namespace PointsTo

namespace Elements

/-- The entries of `e` have the same numbers in `e'`. -/
structure Continues (e e' : Elements) : Prop where
  types : e.types.toList <+: e'.types.toList
  methods : e.methods.keys <+: e'.methods.keys
  fields : e.fields.toList <+: e'.fields.toList
  vars : e.vars <+: e'.vars
  stmts : e.stmts <+: e'.stmts
  sites : e.sites <+: e'.sites

variable {e e₁ e₂ : Elements} {m : MethodId}

namespace Continues

theorem refl (e : Elements) : e.Continues e :=
  ⟨List.prefix_refl _, List.prefix_refl _, List.prefix_refl _, List.prefix_refl _,
    List.prefix_refl _, List.prefix_refl _⟩

theorem trans (h₁ : e.Continues e₁) (h₂ : e₁.Continues e₂) : e.Continues e₂ :=
  ⟨h₁.types.trans h₂.types, h₁.methods.trans h₂.methods, h₁.fields.trans h₂.fields,
    h₁.vars.trans h₂.vars, h₁.stmts.trans h₂.stmts, h₁.sites.trans h₂.sites⟩

end Continues

/-! ### Entering entities -/

theorem continues_addType (e : Elements) (t : Ty) : e.Continues (e.addType t) :=
  { Continues.refl e with types := e.types.isPrefix_insert t }

theorem continues_addMethod (e : Elements) (m : MethodId) : e.Continues (e.addMethod m) := by
  unfold addMethod
  split
  · exact .refl e
  · refine (e.continues_addType (.cls (e.program.method m).owner)).trans ?_
    exact { Continues.refl _ with methods := (Table.isPrefix_insert e.methods m {}).map Prod.fst }

theorem continues_addField (e : Elements) (f : FieldId) : e.Continues (e.addField f) := by
  unfold addField
  split
  · exact .refl e
  · exact ((e.continues_addType _).trans (continues_addType _ _)).trans
      { Continues.refl _ with fields := OrderedSet.isPrefix_insert _ f }

theorem continues_mention (e : Elements) (x : Mention) : e.Continues (e.mention x) := by
  cases x with
  | type t => exact e.continues_addType t
  | method m => exact e.continues_addMethod m
  | field f => exact e.continues_addField f

theorem continues_foldl_mention (l : List Mention) (e : Elements) :
    e.Continues (l.foldl mention e) := by
  induction l generalizing e with
  | nil => exact .refl e
  | cons x l ih => exact (e.continues_mention x).trans (ih _)

/-! ### Code -/

/-- A change of code leaves the numbers alone. -/
theorem continues_modifyCode (e : Elements) (m : MethodId) (f : Code → Code) :
    e.Continues (e.modifyCode m f) :=
  { Continues.refl e with
    methods := by
      have hkeys : (e.methods.modify m f).keys = e.methods.keys := Table.keys_modify ..
      exact hkeys ▸ List.prefix_refl e.methods.keys }

theorem continues_draft {α : Type} (e : Elements) (m : MethodId) (x : Drafting α) :
    e.Continues (e.draft m x).2 := by
  have hmention := (e.continues_addMethod m).trans
    (continues_foldl_mention (x { code := (e.addMethod m).code m }).2.mentions _)
  have hcode := hmention.trans
    (continues_modifyCode _ m fun _ => (x { code := (e.addMethod m).code m }).2.code)
  exact hcode.trans { Continues.refl _ with
    vars := List.prefix_append _ _
    stmts := List.prefix_append _ _
    sites := List.prefix_append _ _ }

theorem continues_own (e : Elements) (st : Stmt) (s : StmtId) : e.Continues (e.own st s) := by
  cases st with
  | alloc | assign | load | store => exact .refl e
  | call site lhs => exact e.continues_modifyCode _ _

theorem continues_note (e : Elements) (st : Stmt) (s : StmtId) : e.Continues (e.note st s) := by
  unfold note
  split
  · exact e.continues_modifyCode _ _
  · exact .refl e

theorem continues_noted (e : Elements) (m : MethodId) (st : Stmt) (synthetic : Bool) :
    e.Continues (e.noted m st synthetic) := by
  unfold noted
  split
  · exact e.continues_own st _
  · exact (e.continues_own st _).trans (continues_note _ st _)

theorem continues_place (e : Elements) (m : MethodId) (st : Stmt) (synthetic : Bool) :
    e.Continues (e.place m st synthetic) := by
  rw [place_eq]
  have hcode := (e.continues_noted m st synthetic).trans
    (continues_modifyCode _ m (·.pushStmt m st synthetic))
  exact hcode.trans { Continues.refl _ with stmts := List.prefix_append _ _ }

theorem continues_addStmt (e : Elements) (m : MethodId) (st : Stmt) (synthetic : Bool) :
    e.Continues (e.addStmt m st synthetic).2 := by
  have hmention := (e.continues_addMethod m).trans
    (continues_foldl_mention st.mentions (e.addMethod m))
  simp only [addStmt]
  split
  · exact hmention.trans (continues_place _ m st synthetic)
  · exact hmention

theorem continues_addCall (e : Elements) (m : MethodId) (kind : CallKind) (target : MethodId)
    (receiver : Option VarId) (args : List (Option VarId)) (lhs : Option VarId)
    (synthetic : Bool) : e.Continues (e.addCall m kind target receiver args lhs synthetic).2 := by
  have hcall := (e.continues_draft m (Drafting.newSite m kind target receiver args)).trans
    (continues_addStmt _ m (.call (e.newSite m kind target receiver args).1 lhs) synthetic)
  simp only [addCall]
  split
  · exact hcall
  · exact hcall.trans (continues_modifyCode _ m _)

theorem continues_lower (e : Elements) (m : MethodId) : e.Continues (e.lower m).2 := by
  have hadd := e.continues_addMethod m
  simp only [lower]
  split
  · exact hadd
  · exact (hadd.trans (continues_modifyCode _ m _)).trans (continues_draft _ m _)

theorem continues_resolve (e : Elements) (signature : String) :
    e.Continues (e.resolve signature).2 := by
  unfold resolve
  split
  · exact .refl e
  · split
    · exact .refl e
    · exact e.continues_addMethod _

theorem continues_dispatch (e : Elements) (t : Ty) (sub : String) :
    e.Continues (e.dispatch t sub).2 := by
  have hadd := e.continues_addType t
  simp only [dispatch]
  split
  · exact hadd
  · cases (e.addType t).program.dispatch? t sub with
    | none => exact hadd.trans { Continues.refl _ with }
    | some m =>
      exact (hadd.trans (continues_addMethod _ m)).trans { Continues.refl _ with }

/-! ### Requests -/

theorem continues_serve (e : Elements) (r : Request) : e.Continues (e.serve r).2 := by
  cases r with
  | type t => exact e.continues_addType t
  | method m => exact e.continues_addMethod m
  | field f => exact e.continues_addField f
  | localVar m l decl => exact e.continues_draft m _
  | newVar m name ty => exact e.continues_draft m _
  | temp m base ty => exact e.continues_draft m _
  | addStmt m st synthetic => exact e.continues_addStmt m st synthetic
  | newSite m kind target receiver args => exact e.continues_draft m _
  | addCall m kind target receiver args lhs synthetic =>
    exact e.continues_addCall m kind target receiver args lhs synthetic
  | lower m => exact e.continues_lower m
  | resolve signature => exact e.continues_resolve signature
  | dispatch t sub => exact e.continues_dispatch t sub

theorem Develops.continues (h : e.Develops e₁) : e.Continues e₁ := by
  induction h with
  | refl => exact .refl e
  | serve _ r ih => exact ih.trans (continues_serve _ r)
  | tell _ level text ih => exact ih.trans { Continues.refl _ with }

/-- The entries of `e` have the same numbers in `e'`, and statements and call sites say the same. -/
structure Extends (e e' : Elements) : Prop where
  continues : e.Continues e'
  grows : e.Grows e'

theorem Extends.refl (e : Elements) : e.Extends e := ⟨.refl e, .refl e⟩

theorem Extends.trans (h₁ : e.Extends e₁) (h₂ : e₁.Extends e₂) : e.Extends e₂ :=
  ⟨h₁.continues.trans h₂.continues, h₁.grows.trans h₂.grows⟩

theorem Develops.extends (h : e.Develops e₁) : e.Extends e₁ := ⟨h.continues, h.grows⟩

end Elements

end PointsTo
