import PointsTo.Plugin.Extension
import PointsTo.Proofs.Plugin.Conduct
import Mathlib.Data.List.Forall2

/-!
# Handlers that keep to the calling method

A handler makes statements in the place of a call. A proper handler (`Handler.Proper`) makes them of
variables and call sites of the method that makes the call; on the way it may create such variables
and call sites, and enter types, methods and fields.

* `Elements.Yields`: the statements can be added to the method;
* `run_addSynthetic`: the names that they get stand for them, in order;
* `Extension.proper_templateHandler`: handlers that expand a template are proper.
-/

namespace PointsTo

namespace Script

variable {α β γ : Type}

theorem bind_assoc (x : Script α) (f : α → Script β) (g : β → Script γ) :
    (x.bind f).bind g = x.bind fun a => (f a).bind g := by
  induction x with
  | done a => rfl
  | look k ih => exact congrArg Script.look (funext fun e => ih e)
  | ask r k ih => exact congrArg (Script.ask r) (funext fun a => ih a)

theorem bind_done (x : Script α) : x.bind .done = x := by
  induction x with
  | done a => rfl
  | look k ih => exact congrArg Script.look (funext fun e => ih e)
  | ask r k ih => exact congrArg (Script.ask r) (funext fun a => ih a)

instance : LawfulMonad Script :=
  LawfulMonad.mk' Script bind_done (fun _ _ => rfl) bind_assoc

end Script

/-- A script changes the tables, and nothing else of what a hook works on. -/
theorem Hook.run_ofScript {α : Type} (x : Script α) (s : Stage) :
    (Hook.ofScript x).run s = ((x.run s.analysis.elements).1,
      { s with analysis := { s.analysis with elements := (x.run s.analysis.elements).2 } }) := by
  induction x generalizing s with
  | done a => rfl
  | look k ih => exact ih s.analysis.elements s
  | ask r k ih => exact ih _ _

namespace Elements

variable {e e₁ e₂ : Elements} {m : MethodId} {st : Stmt} {site : SiteId}

/-- There is a call site to be modelled, in a method that was lowered. -/
structure Ready (e : Elements) (site : SiteId) : Prop where
  tables : e.Local
  sound : e.Sound
  built : e.isBuilt site.method = true
  there : ∃ t, e.site? site = some t

theorem Ready.mono (h : e.Ready site) (he : e.Evolves e₁) : e₁.Ready site where
  tables := he.local h.tables
  sound := he.develops.sound h.sound
  built := he.isBuilt h.built
  there := by
    obtain ⟨t, ht⟩ := h.there
    obtain ⟨t', ht', -⟩ := he.develops.grows.site? ht
    exact ⟨t', ht'⟩

/-- Statements can be added as long as their call sites are there. -/
theorem Grows.admits (h : e.Grows e₁) (hst : e.admits st = true) : e₁.admits st = true := by
  cases st with
  | alloc | assign | load | store => rfl
  | call id lhs =>
    obtain ⟨t, ht⟩ := Option.isSome_iff_exists.1 hst
    obtain ⟨t', ht', -⟩ := h.site? ht
    exact Option.isSome_iff_exists.2 ⟨t', ht'⟩

/-- Statements were made that can be added to `m`. -/
structure Yields (e : Elements) (m : MethodId) (stmts : List Stmt) (e' : Elements) : Prop where
  evolves : e.Evolves e'
  localTo : ∀ st ∈ stmts, st.LocalTo m
  admits : ∀ st ∈ stmts, e'.admits st = true

namespace Yields

theorem none (h : e.Evolves e₁) : e.Yields m [] e₁ :=
  ⟨h, List.forall_mem_nil _, List.forall_mem_nil _⟩

theorem one (h : e.Evolves e₁) (hst : st.LocalTo m) (hadmits : e₁.admits st = true) :
    e.Yields m [st] e₁ :=
  ⟨h, List.forall_mem_singleton.2 hst, List.forall_mem_singleton.2 hadmits⟩

theorem append {l₁ l₂ : List Stmt} (h₁ : e.Yields m l₁ e₁) (h₂ : e₁.Yields m l₂ e₂) :
    e.Yields m (l₁ ++ l₂) e₂ where
  evolves := h₁.evolves.trans h₂.evolves
  localTo := List.forall_mem_append.2 ⟨h₁.localTo, h₂.localTo⟩
  admits := List.forall_mem_append.2
    ⟨fun st hst => h₂.evolves.develops.grows.admits (h₁.admits st hst), h₂.admits⟩

end Yields

/-! ### Adding statements -/

/-- The name of a statement that was added stands for it. -/
theorem has_addStmt (e : Elements) (m : MethodId) (hst : e.admits st = true) :
    (e.addStmt m st true).2.Has (e.addStmt m st true).1 st := by
  have hgrows : e.Grows (st.mentions.foldl mention (e.addMethod m)) :=
    (e.grows_mention (.method m)).trans (grows_foldl_mention st.mentions (e.addMethod m))
  have hm := (foldl_mention_frame st.mentions (e.addMethod m)).2.2.2 m (e.mem_keys_addMethod m)
  simp only [addStmt, hgrows.admits hst, if_true]
  exact (has_place st true hm).2 (.inr ⟨rfl, rfl⟩)

end Elements

theorem run_addSynthetic_cons (m : MethodId) (st : Stmt) (stmts : List Stmt) (e : Elements) :
    (addSynthetic m (st :: stmts)).run e =
      ((e.addStmt m st true).1 :: ((addSynthetic m stmts).run (e.addStmt m st true).2).1,
        ((addSynthetic m stmts).run (e.addStmt m st true).2).2) := by
  have hcons : addSynthetic m (st :: stmts) = .ask (.addStmt m st true) fun id =>
      (addSynthetic m stmts).bind fun ids => .done ((id : StmtId) :: ids) := List.mapM_cons
  rw [hcons]
  exact Script.run_bind _ _ _

open Elements in
/-- Statements that can be added get names of the method, in order. -/
theorem run_addSynthetic {m : MethodId} {stmts : List Stmt} {e : Elements}
    (hm : e.isBuilt m = true) (hlocal : ∀ st ∈ stmts, st.LocalTo m)
    (hadmits : ∀ st ∈ stmts, e.admits st = true) :
    e.Evolves ((addSynthetic m stmts).run e).2 ∧
      (∀ id ∈ ((addSynthetic m stmts).run e).1, id.method = m) ∧
      List.Forall₂ ((addSynthetic m stmts).run e).2.Has ((addSynthetic m stmts).run e).1 stmts := by
  induction stmts generalizing e with
  | nil => exact ⟨.refl, List.forall_mem_nil _, .nil⟩
  | cons st stmts ih =>
    obtain ⟨hst, hlocal⟩ := List.forall_mem_cons.1 hlocal
    obtain ⟨hst', hadmits⟩ := List.forall_mem_cons.1 hadmits
    have hfirst : e.Evolves (e.addStmt m st true).2 :=
      Evolves.refl.serve (r := .addStmt m st true) ⟨hm, rfl, hst⟩
    obtain ⟨hevolves, hids, hhas⟩ := ih (hfirst.isBuilt hm) hlocal
      fun st' h => hfirst.develops.grows.admits (hadmits st' h)
    rw [run_addSynthetic_cons]
    refine ⟨hfirst.trans hevolves, List.forall_mem_cons.2 ⟨rfl, hids⟩, .cons ?_ hhas⟩
    exact hevolves.develops.grows.has (e.has_addStmt m hst')

/-- The handler makes statements for the method that makes the call. -/
def Handler.Proper (h : Handler) : Prop :=
  ∀ (e : Elements) site, e.Ready site → e.Yields site.method ((h site).run e).1 ((h site).run e).2

/-! ### Templates -/

namespace Template

variable {e : Elements} {site : SiteId} {bindings : Bindings}

/-- The temporaries are variables of `m`. -/
def LocalTo (m : MethodId) (bindings : Bindings) : Prop := ∀ x ∈ bindings, x.2.method = m

theorem lookup_localTo {m : MethodId} (hb : LocalTo m bindings) {name : String} {v : VarId}
    (hv : bindings.lookup name = some v) : v.method = m := by
  induction bindings with
  | nil => cases hv
  | cons x bindings ih =>
    obtain ⟨hx, hb⟩ := List.forall_mem_cons.1 hb
    rw [List.lookup_cons] at hv
    split at hv
    · cases hv
      exact hx
    · exact ih hb hv

/-- A template names variables of the method that makes the call. -/
theorem resolve_localTo (h : e.Ready site) (hb : LocalTo site.method bindings) {r : VarRef}
    {v : VarId} (hv : resolve e site.method (some site) bindings r = some v) :
    v.method = site.method := by
  have hcode := h.tables.home site.method
  cases r with
  | result => exact h.tables.result h.sound hv
  | receiver => exact (h.tables.site site).receiver v hv
  | arg i =>
    exact (h.tables.site site).args v (List.mem_of_getElem? (Option.join_eq_some_iff.1 hv))
  | this => exact hcode.this v hv
  | param i => exact hcode.params v (List.mem_of_getElem? (Option.join_eq_some_iff.1 hv))
  | «return» i => exact hcode.returns v (List.mem_of_getElem? hv)
  | bound name => exact lookup_localTo hb hv
  | named name =>
    obtain ⟨slot, -, rfl⟩ := Option.map_eq_some_iff.1 hv
    rfl

/-- An item has made statements for `m`, and temporaries of `m`. -/
structure Expands (e : Elements) (m : MethodId) (r : (List Stmt × Bindings) × Elements) : Prop where
  yields : e.Yields m r.1.1 r.2
  bindings : LocalTo m r.1.2

/-- An item whose variables do not exist is left out. -/
theorem expands_none (hb : LocalTo site.method bindings) :
    Expands e site.method (([], bindings), e) := ⟨.none .refl, hb⟩

theorem expands_one (hb : LocalTo site.method bindings) {e' : Elements} (he : e.Evolves e')
    {st : Stmt} (hst : st.LocalTo site.method) (hadmits : e'.admits st = true) :
    Expands e site.method (([st], bindings), e') := ⟨.one he hst hadmits, hb⟩

theorem admits_newSite (e : Elements) (m : MethodId) (kind : CallKind) (target : MethodId)
    (receiver : Option VarId) (args : List (Option VarId)) (lhs : Option VarId) :
    (e.newSite m kind target receiver args).2.admits
      (.call (e.newSite m kind target receiver args).1 lhs) = true := by
  rw [Elements.admits, Elements.site?_newSite]
  rfl

theorem expandItem_expands (h : e.Ready site) (hb : LocalTo site.method bindings)
    (item : TemplateItem) :
    Expands e site.method ((expandItem site.method (some site) bindings item).run e) := by
  have hvar : ∀ {r : Option VarRef} {v},
      r.bind (resolve e site.method (some site) bindings) = some v → v.method = site.method := by
    intro r v hv
    obtain ⟨x, -, hx⟩ := Option.bind_eq_some_iff.1 hv
    exact resolve_localTo h hb hx
  simp only [expandItem, Script.elements, Bind.bind, Script.bind, Script.run]
  cases item with
  | temp name base ty =>
    have htemp : e.Evolves (e.temp site.method base ty).2 :=
      Elements.Evolves.refl.serve (r := .temp site.method base ty) h.built
    exact ⟨.none htemp, List.forall_mem_cons.2 ⟨rfl, hb⟩⟩
  | alloc lhs ty =>
    dsimp only
    split
    · rename_i hlhs
      exact expands_one hb (Elements.Evolves.refl.serve (r := .type ty) trivial) (hvar hlhs) rfl
    · exact expands_none hb
  | assign lhs rhs =>
    dsimp only
    split
    · rename_i hlhs hrhs
      exact expands_one hb .refl ⟨hvar hlhs, hvar hrhs⟩ rfl
    · exact expands_none hb
  | load lhs base f =>
    dsimp only
    split
    · rename_i hlhs hbase
      exact expands_one hb (Elements.Evolves.refl.serve (r := .field f) trivial)
        ⟨hvar hlhs, hvar hbase⟩ rfl
    · exact expands_none hb
  | store base f rhs =>
    dsimp only
    split
    · rename_i hbase hrhs
      exact expands_one hb (Elements.Evolves.refl.serve (r := .field f) trivial)
        ⟨hvar hbase, hvar hrhs⟩ rfl
    · exact expands_none hb
  | call kind target receiver args lhs =>
    have hargs : ∀ v, some v ∈ args.map (·.bind (resolve e site.method (some site) bindings)) →
        v.method = site.method := by
      intro v hv
      obtain ⟨r, -, hr⟩ := List.mem_map.1 hv
      exact hvar hr
    refine expands_one hb (Elements.Evolves.refl.serve (r := .newSite site.method kind target _ _)
      ⟨h.built, fun v => hvar, hargs⟩) ⟨rfl, fun v => hvar⟩ ?_
    exact admits_newSite ..
  | callAgain lhs =>
    obtain ⟨t, ht⟩ := h.there
    exact expands_one hb .refl ⟨rfl, fun v => hvar⟩ (Option.isSome_iff_exists.2 ⟨t, ht⟩)

theorem run_expand_cons (m : MethodId) (site : Option SiteId) (bindings : Bindings)
    (item : TemplateItem) (rest : Template) (e : Elements) :
    (expand m site bindings (item :: rest)).run e =
      let first := (expandItem m site bindings item).run e
      let others := (expand m site first.1.2 rest).run first.2
      (first.1.1 ++ others.1, others.2) :=
  (Script.run_bind _ _ e).trans (Script.run_bind _ _ _)

theorem expand_yields (h : e.Ready site) (hb : LocalTo site.method bindings) (t : Template) :
    e.Yields site.method ((expand site.method (some site) bindings t).run e).1
      ((expand site.method (some site) bindings t).run e).2 := by
  induction t generalizing e bindings with
  | nil => exact .none .refl
  | cons item rest ih =>
    have hfirst := expandItem_expands h hb item
    rw [run_expand_cons]
    exact hfirst.yields.append (ih (h.mono hfirst.yields.evolves) hfirst.bindings)

end Template

theorem Extension.proper_templateHandler (t : Template) : (templateHandler t).Proper :=
  fun _ _ h => Template.expand_yields h (List.forall_mem_nil _) t

end PointsTo
