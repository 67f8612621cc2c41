import PointsTo.Proofs.Elements.Growth

/-!
# The bodies of methods

A method gets a body when it is lowered, or when statements of a body are added by hand. What else
is done to the tables leaves the body alone, and what calls of the method are bound to.

* `Request.Builds`: the requests that give a method code;
* `Code.Touches`: what a request does to the code of a method, unless it has it lowered
  (`Elements.touches_serve`);
* `Elements.Develops.code_rel`: what all this does to the code of a method;
* `Code.Retains`: variables, and the statements that are noted with them, stay;
* `Elements.Develops.blank`: what was not lowered, and has no body, has nothing to bind either;
* `Elements.DevelopsBy`: the tables come from others by requests of some kind, and
  `Elements.DevelopsBy.face_body_eq`: a method that nobody builds stays as it is.
-/

namespace PointsTo

open Relation (ReflTransGen)

/-- The request has the body of `m` lowered, or adds a statement to it. -/
def Request.Builds (m : MethodId) : Request → Prop
  | .lower m' => m' = m
  | .addStmt m' _ synthetic | .addCall m' _ _ _ _ _ synthetic => m' = m ∧ synthetic = false
  | _ => False

namespace Code

/-! ### Changes by requests -/

/-- One change that a request makes to the code of `m`. Only some requests may add to the body. -/
inductive Touch (m : MethodId) (builds : Prop) (c : Code) : Code → Prop
  | var (v : Var) : Touch m builds c (c.pushVar v)
  | temp : Touch m builds c { c with temps := c.temps + 1 }
  | site (t : CallSite) : Touch m builds c (c.pushSite t)
  | owner (slot : Nat) (s : StmtId) : Touch m builds c (c.bindSite slot s)
  | note (slot : Nat) (role : Role) (s : StmtId) : Touch m builds c (c.register slot role s)
  | stmt (st : Stmt) (synthetic : Bool) (h : synthetic = false → builds) :
      Touch m builds c (c.pushStmt m st synthetic)
  | bodySite (id : SiteId) : Touch m builds c { c with bodySites := c.bodySites ++ [id] }

/-- What a request does to the code of `m`, unless it has it lowered. -/
abbrev Touches (m : MethodId) (builds : Prop) : Code → Code → Prop := ReflTransGen (Touch m builds)

/-- Whether the method was lowered, and what calls of it are bound to. -/
def face (c : Code) : Bool × Option VarId × List (Option VarId) × List VarId :=
  (c.built, c.this, c.params, c.returns)

/-- The variables of `c` are there in `c'`, with the statements that were noted with them. -/
def Retains (c c' : Code) : Prop :=
  ∀ (j : Nat) x, c.vars[j]? = some x →
    ∃ x', c'.vars[j]? = some x' ∧ ∀ s ∈ x.dependents, s ∈ x'.dependents

variable {m : MethodId} {builds : Prop} {c c₁ c₂ : Code}

theorem Touches.face_eq (h : Touches m builds c c₁) : c₁.face = c.face := by
  induction h with
  | refl => rfl
  | tail _ h ih => cases h <;> exact ih

theorem Touches.body_eq (h : Touches m builds c c₁) (hb : ¬ builds) : c₁.body = c.body := by
  induction h with
  | refl => rfl
  | tail _ h ih =>
    cases h with
    | stmt st synthetic hs =>
      cases synthetic with
      | true => exact ih
      | false => exact absurd (hs rfl) hb
    | _ => exact ih

/-- The statements of the code of `m` that are not synthetic are in its body. -/
def Lists (m : MethodId) (c : Code) : Prop :=
  ∀ (i : Nat) x, c.stmts[i]? = some x → x.synthetic = false → ⟨m, i⟩ ∈ c.body

theorem Lists.concat {x : PlacedStmt} (h : c.Lists m) (hstmts : c₁.stmts = c.stmts ++ [x])
    (hold : ∀ s ∈ c.body, s ∈ c₁.body)
    (hnew : x.synthetic = false → ⟨m, c.stmts.length⟩ ∈ c₁.body) : c₁.Lists m := by
  intro i y hy hsyn
  rw [hstmts, List.getElem?_append] at hy
  split at hy <;> rename_i hi
  · exact hold _ (h i y hy hsyn)
  · rw [List.getElem?_singleton] at hy
    split at hy <;> cases hy
    rw [show i = c.stmts.length by omega]
    exact hnew hsyn

theorem Touches.lists (h : Touches m builds c c₁) (hc : c.Lists m) : c₁.Lists m := by
  induction h with
  | refl => exact hc
  | tail _ h ih =>
    cases h with
    | stmt st synthetic =>
      refine ih.concat rfl (fun s hs => ?_) fun hsyn => ?_
      · simp only [pushStmt]
        split
        · exact hs
        · exact List.mem_append_left _ hs
      · replace hsyn : synthetic = false := hsyn
        subst hsyn
        exact List.mem_append_right _ (List.mem_singleton.2 rfl)
    | _ => exact ih

theorem Edits.lists (h : Edits m c c₁) (hc : c.Lists m) : c₁.Lists m := by
  have hadd : ∀ {c : Code}, c.Lists m → ∀ st, (c.addStmt m st).Lists m := by
    intro c hc st
    obtain ⟨hstmts, hbody, -⟩ := c.rest_addStmt m st
    refine hc.concat hstmts (fun s hs => ?_) fun _ => ?_ <;> rw [hbody]
    · exact List.mem_append_left _ hs
    · exact List.mem_append_right _ (List.mem_singleton.2 rfl)
  induction h with
  | refl => exact hc
  | tail _ h ih =>
    cases h with
    | stmt => exact hadd ih _
    | @call t _ lhs => exact hadd (c := Code.pushSite _ t) ih _
    | var | temp | site | bodySite | interface => exact ih

/-- The method was not lowered, there is nothing that calls of it could be bound to, and nobody has
given it a body. -/
structure Blank (c : Code) : Prop where
  built : c.built = false
  this : c.this = none
  params : c.params = []
  returns : c.returns = []
  body : c.body = []
  synthetic : ∀ x ∈ c.stmts, x.synthetic = true

theorem Blank.of_face (hface : c.face = (false, none, [], [])) (hbody : c.body = [])
    (hlists : c.Lists m) : c.Blank := by
  simp only [face, Prod.mk.injEq] at hface
  obtain ⟨hbuilt, hthis, hparams, hreturns⟩ := hface
  refine ⟨hbuilt, hthis, hparams, hreturns, hbody, fun x hx => ?_⟩
  obtain ⟨i, hi⟩ := List.mem_iff_getElem?.1 hx
  rw [← Bool.not_eq_false]
  intro hsyn
  exact List.not_mem_nil (hbody ▸ hlists i x hi hsyn)

namespace Retains

theorem refl (c : Code) : c.Retains c := fun _ x hx => ⟨x, hx, fun _ => id⟩

theorem trans (h₁ : c.Retains c₁) (h₂ : c₁.Retains c₂) : c.Retains c₂ := by
  intro j x hx
  obtain ⟨x₁, hx₁, hs₁⟩ := h₁ j x hx
  obtain ⟨x₂, hx₂, hs₂⟩ := h₂ j x₁ hx₁
  exact ⟨x₂, hx₂, fun s hs => hs₂ s (hs₁ s hs)⟩

theorem of_isPrefix (h : c.vars <+: c₁.vars) : c.Retains c₁ :=
  fun _ x hx => ⟨x, getElem?_of_isPrefix h hx, fun _ => id⟩

theorem of_eq (h : c₁.vars = c.vars) : c.Retains c₁ := .of_isPrefix (h ▸ List.prefix_refl _)

/-- A further note, if there is the variable. -/
theorem of_modify {slot : Nat} {role : Role} {s : StmtId}
    (h : c₁.vars = c.vars.modify slot (·.register role s)) : c.Retains c₁ := by
  intro j x hx
  rw [h, List.getElem?_modify, hx]
  split
  · exact ⟨_, rfl, fun s' hs' => Var.mem_dependents_register.2 (.inl hs')⟩
  · exact ⟨x, rfl, fun _ => id⟩

theorem addStmt (c : Code) (m : MethodId) (st : Stmt) : c.Retains (c.addStmt m st) := by
  have hvars := c.vars_addStmt m st
  split at hvars
  · exact .of_modify hvars
  · exact .of_eq hvars

end Retains

theorem Touches.retains (h : Touches m builds c c₁) : c.Retains c₁ := by
  induction h with
  | refl => exact .refl c
  | tail _ h ih =>
    refine ih.trans ?_
    cases h with
    | var => exact .of_isPrefix (List.prefix_append _ _)
    | note => exact .of_modify rfl
    | temp | site | owner | stmt | bodySite => exact .of_eq rfl

theorem Edits.retains (h : Edits m c c₁) : c.Retains c₁ := by
  induction h with
  | refl => exact .refl c
  | tail _ h ih =>
    refine ih.trans ?_
    cases h with
    | var => exact .of_isPrefix (List.prefix_append _ _)
    | stmt => exact .addStmt _ m _
    | @call t _ lhs => exact .trans (.of_eq rfl) (.addStmt (Code.pushSite _ t) m _)
    | temp | site | bodySite | interface => exact .of_eq rfl

end Code

namespace Elements

variable {e e₁ e₂ : Elements} {m m' : MethodId} {r : Request} {s : StmtId} {st : Stmt}

/-! ### What requests do to code -/

section

variable {builds : Prop}

theorem touches_modifyCode {f : Code → Code}
    (h : ∀ c, m = m' → Code.Touch m builds c (f c)) :
    Code.Touches m builds (e.code m) ((e.modifyCode m' f).code m) := by
  rcases e.code_modifyCode_cases m' f m with hc | ⟨hm, hc⟩ <;> rw [hc]
  exact .single (h _ hm)

theorem touches_draft {α : Type} {x : Drafting α}
    (h : ∀ d, Code.Touches m builds d.code (x d).2.code) :
    Code.Touches m builds (e.code m) ((e.draft m' x).2.code m) := by
  rw [code_draft]
  split <;> rename_i hm
  · exact hm ▸ h { code := e.code m }
  · exact .refl

/-- Before a statement is put in its place, it is only noted. -/
theorem touches_noted (synthetic : Bool) :
    Code.Touches m builds (e.code m) ((e.noted m' st synthetic).code m) := by
  have hown : ∀ id, Code.Touches m builds (e.code m) ((e.own st id).code m) := by
    intro id
    cases st with
    | alloc | assign | load | store => exact .refl
    | call site lhs => exact touches_modifyCode fun c _ => .owner site.slot id
  have hnote : ∀ (e : Elements) id, Code.Touches m builds (e.code m) ((e.note st id).code m) := by
    intro e id
    unfold note
    split
    · exact touches_modifyCode fun c _ => .note _ _ id
    · exact .refl
  unfold noted
  split
  · exact hown _
  · exact (hown _).trans (hnote _ _)

theorem touches_place {synthetic : Bool} (h : m = m' → synthetic = false → builds) :
    Code.Touches m builds (e.code m) ((e.place m' st synthetic).code m) := by
  rw [code_place]
  refine (touches_noted synthetic).trans (touches_modifyCode fun c hm => ?_)
  exact hm ▸ .stmt st synthetic (h hm)

theorem touches_addStmt {synthetic : Bool} (h : m = m' → synthetic = false → builds) :
    Code.Touches m builds (e.code m) ((e.addStmt m' st synthetic).2.code m) := by
  have hcode : (st.mentions.foldl mention (e.addMethod m')).code m = e.code m :=
    ((foldl_mention_frame st.mentions (e.addMethod m')).2.2.1 m).trans (e.code_addMethod m' m)
  simp only [addStmt]
  split
  · rw [← hcode]
    exact touches_place h
  · rw [hcode]

end

theorem touches_newSite (e : Elements) (m m' : MethodId) (builds : Prop) (kind : CallKind)
    (target : MethodId) (receiver : Option VarId) (args : List (Option VarId)) :
    Code.Touches m builds (e.code m) ((e.newSite m' kind target receiver args).2.code m) :=
  touches_draft fun _ => .single (.site _)

/-- A request does little to the code of a method, unless it has it lowered. -/
theorem touches_serve (e : Elements) (hr : r ≠ .lower m) :
    Code.Touches m (r.Builds m) (e.code m) ((e.serve r).2.code m) := by
  cases r with
  | type t => exact .refl
  | method m' => exact (e.code_addMethod m' m).symm ▸ .refl
  | field f => exact (e.code_addField f m).symm ▸ .refl
  | localVar m' l decl =>
    refine touches_draft fun d => ?_
    rw [Lower.localVar_run]
    split
    · split
      · exact .refl
      · exact .single (.var _)
    · exact .refl
  | newVar m' name ty => exact touches_draft fun _ => .single (.var _)
  | temp m' base ty => exact touches_draft fun _ => .tail (.single .temp) (.var _)
  | addStmt m' st synthetic => exact touches_addStmt fun hm hs => ⟨hm.symm, hs⟩
  | newSite m' kind target receiver args => exact touches_newSite e m m' _ kind target receiver args
  | addCall m' kind target receiver args lhs synthetic =>
    have hcall : Code.Touches m (m' = m ∧ synthetic = false) (e.code m)
        (((e.newSite m' kind target receiver args).2.addStmt m'
          (.call (e.newSite m' kind target receiver args).1 lhs) synthetic).2.code m) :=
      (touches_newSite e m m' _ kind target receiver args).trans
        (touches_addStmt fun hm hs => ⟨hm.symm, hs⟩)
    simp only [serve, addCall]
    split
    · exact hcall
    · exact hcall.trans (touches_modifyCode fun c _ => .bodySite _)
  | lower m' =>
    have hm : m ≠ m' := fun h => hr (h ▸ rfl)
    show Code.Touches m _ (e.code m) ((e.lower m').2.code m)
    by_cases hb : e.isBuilt m' = true
    · rw [code_lower_of_built hb]
    · rw [code_lower_of_not_built hb, if_neg hm]
  | resolve signature =>
    simp only [serve, resolve]
    split
    · exact .refl
    · split
      · exact .refl
      · exact (e.code_addMethod _ m).symm ▸ .refl
  | dispatch t sub => exact ((e.code_dispatch t sub).2 m).symm ▸ .refl

/-- What holds between code and what requests and lowering make of it, holds between the code of a
method and what becomes of it. -/
theorem Develops.code_rel {R : Code → Code → Prop}
    (htrans : ∀ {c c₁ c₂}, R c c₁ → R c₁ c₂ → R c c₂)
    (htouches : ∀ {builds c c₁}, Code.Touches m builds c c₁ → R c c₁)
    (hedits : ∀ {c c₁}, Code.Edits m c c₁ → R c c₁)
    (hopen : ∀ c : Code, R c { c with built := true }) (h : e.Develops e₁) :
    R (e.code m) (e₁.code m) := by
  induction h with
  | refl => exact @htouches False _ _ .refl
  | @serve e' _ r ih =>
    refine htrans ih ?_
    by_cases hr : r = .lower m
    · subst hr
      show R (e'.code m) ((e'.lower m).2.code m)
      by_cases hb : e'.isBuilt m = true
      · rw [code_lower_of_built hb]
        exact @htouches False _ _ .refl
      · rw [code_lower_of_not_built hb, if_pos rfl]
        exact htrans (hopen _) (hedits (Lower.edits_method e'.program { code := _ }))
    · exact htouches (touches_serve e' hr)
  | tell _ _ _ ih => exact ih

/-- Variables and the notes with them stay. -/
theorem Develops.retains (h : e.Develops e₁) (m : MethodId) :
    (e.code m).Retains (e₁.code m) :=
  h.code_rel .trans Code.Touches.retains Code.Edits.retains fun _ => .of_eq rfl

/-! ### Methods that nobody builds -/

/-- The statements of bodies are listed there. -/
theorem Develops.lists {p : Program} (h : ({ program := p } : Elements).Develops e)
    (m : MethodId) : (e.code m).Lists m := by
  have hkept := h.code_rel (m := m) (R := fun c c₁ => c.Lists m → c₁.Lists m)
    (fun h₁ h₂ hc => h₂ (h₁ hc)) Code.Touches.lists Code.Edits.lists fun _ => id
  exact hkept (by rintro i x ⟨⟩)

/-- What was not lowered has nothing that calls could be bound to. -/
theorem Develops.face_eq {p : Program} (h : ({ program := p } : Elements).Develops e)
    (hm : e.isBuilt m = false) : (e.code m).face = (false, none, [], []) := by
  induction h with
  | refl => rfl
  | @serve e' h r ih =>
    by_cases hr : r = .lower m
    · subst hr
      cases hm.symm.trans (e'.isBuilt_lower_self m)
    · have hface := (touches_serve e' hr).face_eq
      have hbuilt : (e'.serve r).2.isBuilt m = e'.isBuilt m := congrArg Prod.fst hface
      rw [hface]
      exact ih (hbuilt.symm.trans hm)
  | tell _ _ _ ih => exact ih hm

theorem Develops.blank {p : Program} (h : ({ program := p } : Elements).Develops e)
    (hm : e.isBuilt m = false) (hbody : (e.code m).body = []) : (e.code m).Blank :=
  .of_face (h.face_eq hm) hbody (h.lists m)

/-- The tables `e'` come from `e` by requests with `R` and lines of the log. -/
inductive DevelopsBy (R : Elements → Request → Prop) (e : Elements) : Elements → Prop
  | refl : DevelopsBy R e e
  | serve {e' : Elements} (h : DevelopsBy R e e') {r : Request} (hr : R e' r) :
      DevelopsBy R e (e'.serve r).2
  | tell {e' : Elements} (h : DevelopsBy R e e') (level : Level) (text : String) :
      DevelopsBy R e (e'.tell level text)

namespace DevelopsBy

variable {R R' : Elements → Request → Prop}

theorem develops (h : e.DevelopsBy R e₁) : e.Develops e₁ := by
  induction h with
  | refl => exact .refl
  | serve _ _ ih => exact ih.serve _
  | tell _ level text ih => exact ih.tell level text

theorem trans (h₁ : e.DevelopsBy R e₁) (h₂ : e₁.DevelopsBy R e₂) : e.DevelopsBy R e₂ := by
  induction h₂ with
  | refl => exact h₁
  | serve _ hr ih => exact ih.serve hr
  | tell _ level text ih => exact ih.tell level text

theorem mono (h : e.DevelopsBy R e₁) (hR : ∀ e r, R e r → R' e r) : e.DevelopsBy R' e₁ := by
  induction h with
  | refl => exact .refl
  | serve _ hr ih => exact ih.serve (hR _ _ hr)
  | tell _ level text ih => exact ih.tell level text

/-- A method that nobody builds keeps its body, and what its calls are bound to. -/
theorem face_body_eq (h : e.DevelopsBy R e₁) (hR : ∀ e r, R e r → ¬ r.Builds m) :
    (e₁.code m).face = (e.code m).face ∧ (e₁.code m).body = (e.code m).body := by
  induction h with
  | refl => exact ⟨rfl, rfl⟩
  | @serve e' h r hr ih =>
    have hbuilds := hR e' r hr
    have hlower : r ≠ .lower m := by
      rintro rfl
      exact hbuilds rfl
    have htouches := touches_serve e' hlower
    exact ⟨htouches.face_eq.trans ih.1, (htouches.body_eq hbuilds).trans ih.2⟩
  | tell _ _ _ ih => exact ih

end DevelopsBy

end Elements

end PointsTo
