import Mathlib.Logic.Relation
import PointsTo.Proofs.Code.Lowering

/-!
# Edits of code

The code of a method can have been worked on before its body is lowered. What lowering does to any
such code, and what making variables and call sites does, is said by a few kinds of edits.

* `Code.Edit`: one change to the code of a method, `Code.Edits`: several of them;
* `Lower.Closed`: a property that the steps of lowering have, so that lowering a method has it
  (`Lower.Closed.method`);
* `Lower.Edits`: a step of lowering makes edits only, whether it fails or not, and
  `Lower.edits_method`: so does lowering a method;
* `Lower.Cites`: when it succeeds, a step mentions no methods other than the targets of call sites,
  and `Program.target_of_mention`: neither does lowering a method;
* `Code.Continues`: edits keep the statements and the call sites that were there, and new calls own
  new call sites (`Code.Edits.continues`).
-/

namespace PointsTo

open Relation (ReflTransGen)

namespace Code

/-- One change to the code of `m`, by a step that works on this code alone. -/
inductive Edit (m : MethodId) (c : Code) : Code → Prop
  | var (v : Var) : Edit m c (c.pushVar v)
  | temp : Edit m c { c with temps := c.temps + 1 }
  | site {t : CallSite} (h : t.call = none) : Edit m c (c.pushSite t)
  | stmt {s : Stmt} (h : ∀ id lhs, s ≠ .call id lhs) : Edit m c (c.addStmt m s)
  /-- A call comes with a call site of its own. -/
  | call {t : CallSite} (h : t.call = none) (lhs : Option VarId) :
      Edit m c ((c.pushSite t).addStmt m (.call ⟨m, c.sites.length⟩ lhs))
  | bodySite (id : SiteId) : Edit m c { c with bodySites := c.bodySites ++ [id] }
  /-- What calls of the method are bound to. -/
  | interface (this : Option VarId) (params : List (Option VarId)) (returns : List VarId) :
      Edit m c { c with this, params, returns }

/-- The code `c'` comes from `c` by edits. -/
abbrev Edits (m : MethodId) : Code → Code → Prop := ReflTransGen (Edit m)

/-! ### What edits keep -/

/-- The code `c'` has what `c` has. Its further calls own their call sites, and the owners of its
further call sites are calls on them. -/
structure Continues (m : MethodId) (c c' : Code) : Prop where
  stmts : c.stmts <+: c'.stmts
  sites : c.sites <+: c'.sites
  built_eq : c'.built = c.built
  calls : ∀ (i : Nat) x id lhs, c.stmts.length ≤ i → c'.stmts[i]? = some x →
    x.stmt = .call id lhs → id.method = m ∧ ∃ t, c'.sites[id.slot]? = some t ∧ t.call = some ⟨m, i⟩
  owners : ∀ (j : Nat) t s, c.sites.length ≤ j → c'.sites[j]? = some t → t.call = some s →
    s.method = m ∧ ∃ lhs, (c'.stmts[s.slot]?).map PlacedStmt.stmt = some (.call ⟨m, j⟩ lhs)

variable {m : MethodId} {c c₁ c₂ : Code}

theorem getElem?_of_isPrefix {α : Type} {l l' : List α} {i : Nat} {a : α} (h : l <+: l')
    (ha : l[i]? = some a) : l'[i]? = some a := by
  obtain ⟨more, rfl⟩ := h
  rw [List.getElem?_append_left (List.getElem?_eq_some_iff.1 ha).1]
  exact ha

/-- What is in a longer list and not past the end of the shorter one is in that as well. -/
theorem getElem?_of_lt {α : Type} {l l' : List α} {i : Nat} (h : l <+: l') (hi : i < l.length) :
    l'[i]? = l[i]? := by
  obtain ⟨more, rfl⟩ := h
  exact List.getElem?_append_left hi

namespace Continues

theorem refl (m : MethodId) (c : Code) : Continues m c c where
  stmts := List.prefix_refl _
  sites := List.prefix_refl _
  built_eq := rfl
  calls i x id lhs hi hx := by simp [List.getElem?_eq_none hi] at hx
  owners j t s hj ht := by simp [List.getElem?_eq_none hj] at ht

theorem trans (h₁ : Continues m c c₁) (h₂ : Continues m c₁ c₂) : Continues m c c₂ where
  stmts := h₁.stmts.trans h₂.stmts
  sites := h₁.sites.trans h₂.sites
  built_eq := h₂.built_eq.trans h₁.built_eq
  calls i x id lhs hi hx hcall := by
    by_cases hlt : i < c₁.stmts.length
    · rw [getElem?_of_lt h₂.stmts hlt] at hx
      obtain ⟨hm, t, ht, howner⟩ := h₁.calls i x id lhs hi hx hcall
      exact ⟨hm, t, getElem?_of_isPrefix h₂.sites ht, howner⟩
    · exact h₂.calls i x id lhs (Nat.le_of_not_lt hlt) hx hcall
  owners j t s hj ht howner := by
    by_cases hlt : j < c₁.sites.length
    · rw [getElem?_of_lt h₂.sites hlt] at ht
      obtain ⟨hm, lhs, hcall⟩ := h₁.owners j t s hj ht howner
      obtain ⟨x, hx, hst⟩ := Option.map_eq_some_iff.1 hcall
      exact ⟨hm, lhs, by rw [getElem?_of_isPrefix h₂.stmts hx, Option.map_some, hst]⟩
    · exact h₂.owners j t s (Nat.le_of_not_lt hlt) ht howner

/-- Code with the same statements and call sites. -/
theorem of_eq (hstmts : c₁.stmts = c.stmts) (hsites : c₁.sites = c.sites)
    (hbuilt : c₁.built = c.built) : Continues m c c₁ := by
  have h := refl m c
  refine ⟨?_, ?_, hbuilt, ?_, ?_⟩ <;> simp only [hstmts, hsites]
  · exact h.stmts
  · exact h.sites
  · exact h.calls
  · exact h.owners

end Continues

theorem Edit.continues (h : Edit m c c₁) : Continues m c c₁ := by
  cases h with
  | var | temp | bodySite | interface => exact .of_eq rfl rfl rfl
  | @site t h =>
    refine ⟨List.prefix_refl _, List.prefix_append _ _, rfl, ?_, ?_⟩
    · intro i x id lhs hi hx
      simp [pushSite, List.getElem?_eq_none hi] at hx
    · intro j t' s hj ht' howner
      simp only [pushSite, List.getElem?_append_right hj, List.getElem?_singleton] at ht'
      split at ht' <;> cases ht'
      cases h.symm.trans howner
  | @stmt s h =>
    obtain ⟨hstmts, -, -, -, -, hbuilt⟩ := c.rest_addStmt m s
    have hsites : (c.addStmt m s).sites = c.sites := by
      rw [sites_addStmt]
      split
      · exact absurd rfl (h _ _)
      · rfl
    refine ⟨hstmts ▸ List.prefix_append _ _, hsites ▸ List.prefix_refl _, hbuilt, ?_, ?_⟩
    · intro i x id lhs hi hx hcall
      rw [hstmts, List.getElem?_append_right hi, List.getElem?_singleton] at hx
      split at hx <;> cases hx
      exact absurd hcall (h id lhs)
    · intro j t s' hj ht
      simp [hsites, List.getElem?_eq_none hj] at ht
  | @call t h lhs =>
    obtain ⟨hstmts, -, -, -, -, hbuilt⟩ :=
      (c.pushSite t).rest_addStmt m (.call ⟨m, c.sites.length⟩ lhs)
    replace hstmts : ((c.pushSite t).addStmt m (.call ⟨m, c.sites.length⟩ lhs)).stmts =
      c.stmts ++ [⟨.call ⟨m, c.sites.length⟩ lhs, c.body.length, false⟩] := hstmts
    have hsites := c.sites_addCall m h lhs
    refine ⟨hstmts ▸ List.prefix_append _ _, hsites ▸ List.prefix_append _ _, hbuilt, ?_, ?_⟩
    · intro i x id lhs' hi hx hcall
      rw [hstmts, List.getElem?_append_right hi, List.getElem?_singleton] at hx
      split at hx <;> cases hx
      cases hcall
      refine ⟨rfl, _, by rw [hsites, List.getElem?_concat_length], ?_⟩
      simp only [Option.some.injEq, StmtId.mk.injEq, true_and]
      omega
    · intro j t' s hj ht' howner
      rw [hsites, List.getElem?_append_right hj, List.getElem?_singleton] at ht'
      split at ht' <;> cases ht'
      cases howner
      refine ⟨rfl, lhs, ?_⟩
      rw [hstmts, List.getElem?_concat_length, Option.map_some,
        show j = c.sites.length by omega]

theorem Edits.continues (h : Edits m c c₁) : Continues m c c₁ := by
  induction h with
  | refl => exact .refl m c
  | tail _ h ih => exact ih.trans h.continues

end Code

/-! ### What lowering is made of -/

namespace Lower

/-- A property of steps on the code of `m` that the steps of lowering have, and that steps one after
the other have if each of them does. -/
structure Closed (m : MethodId) (C : ∀ {α : Type}, Lower α → Prop) : Prop where
  pure : ∀ {α : Type} (a : α), C (pure a : Lower α)
  throw : ∀ {α : Type} (e : Error), C (throw e : Lower α)
  bind : ∀ {α β : Type} {x : Lower α} {f : α → Lower β}, C x → (∀ a, C (f a)) → C (x >>= f)
  tell : ∀ level text, C (liftM (Drafting.tell level text) : Lower Unit)
  newVar : ∀ name ty source, C (liftM (Drafting.newVar m name ty source) : Lower VarId)
  temp : ∀ base ty, C (liftM (Drafting.temp m base ty) : Lower VarId)
  localVar : ∀ l decl, C (liftM (Drafting.localVar m l decl) : Lower (Option VarId))
  addStmt : ∀ {s : Stmt}, (∀ id lhs, s ≠ .call id lhs) →
    C (liftM (Drafting.addStmt m s) : Lower Unit)
  /-- A change of what calls are bound to. -/
  interface : ∀ {f : Code → Code}, (∀ c, ∃ this params returns,
    f c = { c with this, params, returns }) → C (liftM (Drafting.edit f) : Lower Unit)
  /-- The target of a call is mentioned before its receiver and its arguments are found. -/
  call : ∀ kind target lhs {x : Lower (Option VarId)} {y : Lower (List (Option VarId))}, C x → C y →
    C (do
      liftM (Drafting.mention (.method target))
      let receiver ← x
      let args ← y
      liftM (Drafting.addCall m kind target receiver args lhs) : Lower Unit)

namespace Closed

variable {α β : Type} {m : MethodId} {C : ∀ {α : Type}, Lower α → Prop} (h : Closed m C)

include h

theorem forM {f : β → Lower Unit} (hf : ∀ b, C (f b)) (l : List β) : C (l.forM f) := by
  induction l with
  | nil => exact h.pure ()
  | cons b l ih => exact h.bind (hf b) fun _ => ih

theorem mapM {f : β → Lower α} (hf : ∀ b, C (f b)) (l : List β) : C (l.mapM f) := by
  induction l with
  | nil => exact h.pure []
  | cons b l ih =>
    rw [List.mapM_cons]
    exact h.bind (hf b) fun a => h.bind ih fun as => h.pure (a :: as)

variable (p : Program) (b : Body)

theorem localOf (l : LocalId) : C (Lower.localVar p m b l) := by
  unfold Lower.localVar
  split
  · exact h.localVar l _
  · exact h.throw _

theorem base (l : LocalId) : C (Lower.base p m b l) := by
  refine h.bind (h.localOf p b l) fun v => ?_
  cases v with
  | none => exact h.throw _
  | some v => exact h.pure v

theorem operand (v : Value) : C (Lower.operand p m b v) := by
  cases v with
  | «local» l => exact h.localOf p b l
  | null => exact h.bind (h.temp _ _) fun v => h.pure (some v)
  | int | long | double => exact h.pure none
  | string | classConst => exact h.bind (h.tell _ _) fun _ => h.pure none
  | _ => exact h.throw _

theorem invocation (i : Invocation Value) (lhs : Option VarId) : C (Lower.call p m b i lhs) := by
  unfold Lower.call
  split
  · exact h.throw _
  · have hargs := h.mapM (h.operand p b) i.args
    cases i.receiver with
    | none => exact h.call _ i.method lhs (h.pure none) hargs
    | some v => exact h.call _ i.method lhs (h.operand p b v) hargs

theorem skip (v : Value) : C (Lower.skip p m v) := h.tell _ _

theorem assignLocal (l : LocalId) (rhs : Value) : C (Lower.assignLocal p m b l rhs) := by
  refine h.bind (h.localOf p b l) fun lhs => ?_
  cases rhs with
  | new c =>
    cases lhs with
    | none => exact h.pure ()
    | some v => exact h.addStmt nofun
  | «local» r =>
    refine h.bind (h.localOf p b r) fun rhs => ?_
    cases lhs with
    | none => exact h.pure ()
    | some v =>
      cases rhs with
      | none => exact h.pure ()
      | some w => exact h.addStmt nofun
  | field r f =>
    refine h.bind (h.base p b r) fun base => ?_
    cases lhs with
    | none => exact h.pure ()
    | some v => exact h.addStmt nofun
  | invoke i => exact h.invocation p b i lhs
  | _ => exact h.skip p _

theorem assignField (l : LocalId) (f : FieldId) (rhs : Value) :
    C (Lower.assignField p m b l f rhs) := by
  refine h.bind (h.base p b l) fun base => h.bind (h.operand p b rhs) fun v => ?_
  cases v with
  | none => exact h.pure ()
  | some v => exact h.addStmt nofun

theorem leave (v : Value) : C (Lower.leave p m b v) := by
  unfold Lower.leave
  split
  · refine h.bind (h.operand p b v) fun w => ?_
    cases w with
    | none => exact h.pure ()
    | some w => exact h.interface fun c => ⟨c.this, c.params, _, rfl⟩
  · exact h.pure ()

theorem instruction (i : Instruction) : C (Lower.instruction p m b i) := by
  unfold Lower.instruction
  split
  · exact h.assignLocal p b _ _
  · exact h.assignField p b _ _ _
  · exact h.skip p _
  · exact h.skip p _
  · exact h.throw _
  · exact h.invocation p b _ none
  · exact h.leave p b _
  all_goals exact h.pure ()

theorem body : C (Lower.body p m b) := by
  have hrest : C (do
      let params ← b.paramLocals.mapM (Lower.localVar p m b)
      liftM (Drafting.edit fun c => { c with params })
      b.instructions.forM (Lower.instruction p m b)) :=
    h.bind (h.mapM (h.localOf p b) _) fun params =>
      h.bind (h.interface fun c => ⟨c.this, params, c.returns, rfl⟩) fun _ =>
        h.forM (h.instruction p b) _
  unfold Lower.body
  cases b.thisLocal with
  | none => exact hrest
  | some l =>
    exact h.bind (h.localOf p b l) fun this =>
      h.bind (h.interface fun c => ⟨this, c.params, c.returns, rfl⟩) fun _ => hrest

theorem parameter (i : Nat) (ty : Ty) :
    C (do
      if ty.isReference then
        return some (← liftM (Drafting.newVar m ("@parameter" ++ Text.decimal i) ty none))
      else return none : Lower (Option VarId)) := by
  split
  · exact h.bind (h.newVar _ ty none) fun v => h.pure (some v)
  · exact h.pure none

theorem result (result : Option Ty) :
    C (do
      if let some ty := result then
        if ty.isReference then
          let result ← liftM (Drafting.newVar m "@return" ty none)
          liftM (Drafting.edit fun c => { c with returns := c.returns ++ [result] }) :
            Lower Unit) := by
  cases result with
  | none => exact h.pure ()
  | some ty =>
    simp only
    split
    · exact h.bind (h.newVar _ ty none) fun v =>
        h.interface fun c => ⟨c.this, c.params, c.returns ++ [v], rfl⟩
    · exact h.pure ()

theorem bodiless : C (Lower.bodiless p m) := by
  have hparams := h.bind (h.mapM (fun x : Nat × Ty => h.parameter x.1 x.2)
    ((p.method m).params.mapIdx fun i ty => (i, ty))) fun params =>
      h.bind (h.interface (f := fun c => { c with params }) fun c =>
        ⟨c.this, params, c.returns, rfl⟩) fun _ => h.result (p.method m).result
  unfold Lower.bodiless
  simp only
  split
  · exact h.bind (h.newVar _ _ none) fun this =>
      h.bind (h.interface fun c => ⟨some this, c.params, c.returns, rfl⟩) fun _ => hparams
  · exact hparams

/-- Lowering a method has the property. -/
theorem method : C (Lower.method p m) := by
  unfold Lower.method
  split
  · exact h.body p _
  · split
    · exact h.bind (h.tell _ _) fun _ => h.bodiless p
    · exact h.bodiless p

end Closed

/-! ### Lowering makes edits -/

/-- Whether it fails or not, the step edits the code of `m`. -/
def Edits {α : Type} (m : MethodId) (x : Lower α) : Prop :=
  ∀ d : Draft, Code.Edits m d.code (x.run d).2.code

variable {α β : Type} {m : MethodId}

theorem Edits.bind {x : Lower α} {f : α → Lower β} (hx : Edits m x) (hf : ∀ a, Edits m (f a)) :
    Edits m (x >>= f) := by
  intro d
  have hd := hx d
  rw [run_bind]
  rcases hr : x.run d with ⟨_ | a, d'⟩
  · rw [hr] at hd
    exact hd
  · rw [hr] at hd
    exact hd.trans (hf a d')

theorem edits_newVar (name : String) (ty : Ty) (source : Option LocalId) (d : Draft) :
    Code.Edits m d.code (Drafting.newVar m name ty source d).2.code :=
  .single (.var { name, ty, source })

theorem edits_temp (base : String) (ty : Ty) (d : Draft) :
    Code.Edits m d.code (Drafting.temp m base ty d).2.code :=
  (ReflTransGen.single Code.Edit.temp).tail (.var _)

theorem edits_localVar (l : LocalId) (decl : LocalDecl) (d : Draft) :
    Code.Edits m d.code (Drafting.localVar m l decl d).2.code := by
  rw [localVar_run]
  split
  · split
    · exact .refl
    · exact edits_newVar decl.name decl.ty (some l) d
  · exact .refl

theorem edits_newSite (kind : CallKind) (target : MethodId) (receiver : Option VarId)
    (args : List (Option VarId)) (d : Draft) :
    Code.Edits m d.code (Drafting.newSite m kind target receiver args d).2.code :=
  .single (.site (t := { kind, target, receiver, args }) rfl)

theorem edits_addStmt {s : Stmt} (hcall : ∀ id lhs, s ≠ .call id lhs) (d : Draft) :
    Code.Edits m d.code (Drafting.addStmt m s d).2.code := by
  have hcode : (Drafting.addStmt m s d).2.code = d.code.addStmt m s :=
    congrArg (Code.addStmt · m s) (code_forM_mention s.mentions d)
  rw [hcode]
  exact .single (.stmt hcall)

theorem edits_addCall (kind : CallKind) (target : MethodId) (receiver lhs : Option VarId)
    (args : List (Option VarId)) (d : Draft) :
    Code.Edits m d.code (Drafting.addCall m kind target receiver args lhs d).2.code :=
  (ReflTransGen.single (Code.Edit.call (c := d.code)
    (t := { kind, target, receiver, args }) rfl lhs)).tail (.bodySite _)

theorem closed_edits (m : MethodId) : Closed m (Edits m) where
  pure _ _ := .refl
  throw _ _ := .refl
  bind := Edits.bind
  tell _ _ _ := .refl
  newVar := edits_newVar
  temp := edits_temp
  localVar := edits_localVar
  addStmt := edits_addStmt
  interface {f} hf d := by
    obtain ⟨this, params, returns, heq⟩ := hf d.code
    show Code.Edits m d.code (f d.code)
    rw [heq]
    exact .single (.interface this params returns)
  call kind target lhs _ _ hx hy :=
    Edits.bind (fun _ => .refl) fun _ => hx.bind fun receiver => hy.bind fun args =>
      edits_addCall kind target receiver lhs args

/-- Lowering a method edits its code. -/
theorem edits_method (p : Program) : Edits m (method p m) := (closed_edits m).method p

/-! ### Lowering mentions what calls are made to -/

end Lower

/-- Each method that a draft mentions is the target of one of its call sites, or is in `N`. -/
def Draft.Cites (N : MethodId → Prop) (d : Draft) : Prop :=
  ∀ k, .method k ∈ d.mentions → N k ∨ ∃ t ∈ d.code.sites, t.target = k

namespace Lower

/-- When the step succeeds, drafts that cite `N` are made into drafts that cite `N'`. -/
def Cites {α : Type} (N N' : MethodId → Prop) (x : Lower α) : Prop :=
  ∀ d a d', x.run d = (.ok a, d') → d.Cites N → d'.Cites N'

variable {N N₁ N₂ : MethodId → Prop}

theorem Cites.bind {x : Lower α} {f : α → Lower β} (hx : Cites N N₁ x)
    (hf : ∀ a, Cites N₁ N₂ (f a)) : Cites N N₂ (x >>= f) := by
  intro d b d' hrun hd
  rw [run_bind] at hrun
  rcases hr : x.run d with ⟨_ | a, d₁⟩
  · rw [hr] at hrun
    cases hrun
  · rw [hr] at hrun
    exact hf a d₁ b d' hrun (hx d a d₁ hr hd)

/-- A step that mentions no methods. -/
theorem cites_lift {y : Drafting α} (hedits : ∀ d, Code.Edits m d.code (y d).2.code)
    (hmentions : ∀ d k, .method k ∈ (y d).2.mentions → .method k ∈ d.mentions) :
    Cites N N (liftM y : Lower α) := by
  intro d a d' hrun hd k hk
  cases hrun
  exact (hd k (hmentions d k hk)).imp id fun ⟨t, ht, htarget⟩ =>
    ⟨t, (hedits d).continues.sites.subset ht, htarget⟩

/-- A new variable mentions its type. -/
theorem cites_newVar (name : String) (ty : Ty) (source : Option LocalId) :
    Cites N N (liftM (Drafting.newVar m name ty source) : Lower VarId) := by
  refine cites_lift (edits_newVar name ty source) fun d k hk => ?_
  replace hk : .method k ∈ d.mentions ++ [.type ty] := hk
  simpa using hk

theorem cites_temp (base : String) (ty : Ty) :
    Cites N N (liftM (Drafting.temp m base ty) : Lower VarId) := by
  refine cites_lift (edits_temp base ty) fun d k hk => ?_
  replace hk : .method k ∈ d.mentions ++ [.type ty] := hk
  simpa using hk

theorem cites_localVar (l : LocalId) (decl : LocalDecl) :
    Cites N N (liftM (Drafting.localVar m l decl) : Lower (Option VarId)) := by
  refine cites_lift (edits_localVar l decl) fun d k hk => ?_
  rw [localVar_run] at hk
  split at hk
  · split at hk
    · exact hk
    · replace hk : .method k ∈ d.mentions ++ [.type decl.ty] := hk
      simpa using hk
  · exact hk

theorem mentions_forM_mention (l : List Mention) (d : Draft) :
    (l.forM Drafting.mention d).2.mentions = d.mentions ++ l := by
  induction l generalizing d with
  | nil => exact (List.append_nil _).symm
  | cons x l ih => exact (ih _).trans (List.append_cons _ x l).symm

theorem cites_addStmt {s : Stmt} (hs : ∀ id lhs, s ≠ .call id lhs) :
    Cites N N (liftM (Drafting.addStmt m s) : Lower Unit) := by
  refine cites_lift (edits_addStmt hs) fun d k hk => ?_
  replace hk : .method k ∈ (s.mentions.forM Drafting.mention d).2.mentions := hk
  rw [mentions_forM_mention] at hk
  rcases List.mem_append.1 hk with hk | hk
  · exact hk
  · cases s <;> simp [Stmt.mentions] at hk

theorem cites_mention (target : MethodId) :
    Cites N (fun k => N k ∨ k = target)
      (liftM (Drafting.mention (.method target)) : Lower Unit) := by
  rintro d _ _ ⟨⟩ hd k hk
  rcases List.mem_append.1 hk with hk | hk
  · exact (hd k hk).imp .inl id
  · cases List.mem_singleton.1 hk
    exact .inl (.inr rfl)

/-- The target of a call is that of its call site. -/
theorem cites_addCall (kind : CallKind) (target : MethodId) (receiver lhs : Option VarId)
    (args : List (Option VarId)) :
    Cites (fun k => N k ∨ k = target) N
      (liftM (Drafting.addCall m kind target receiver args lhs) : Lower Unit) := by
  rintro d _ d' ⟨⟩ hd k hk
  let t : CallSite := { kind, target, receiver, args }
  have hsites : (Drafting.addCall m kind target receiver args lhs d).2.code.sites =
      d.code.sites ++ [{ t with call := some ⟨m, d.code.stmts.length⟩ }] :=
    d.code.sites_addCall m (t := t) rfl lhs
  have htarget : ∃ t ∈ (Drafting.addCall m kind target receiver args lhs d).2.code.sites,
      t.target = target :=
    ⟨_, hsites ▸ List.mem_append_right _ (List.mem_singleton.2 rfl), rfl⟩
  replace hk : .method k ∈ d.mentions ++ [.method target] := hk
  rcases List.mem_append.1 hk with hk | hk
  · rcases hd k hk with (hN | rfl) | ⟨t', ht', rfl⟩
    · exact .inl hN
    · exact .inr htarget
    · exact .inr ⟨t', hsites ▸ List.mem_append_left _ ht', rfl⟩
  · cases List.mem_singleton.1 hk
    exact .inr htarget

theorem closed_cites (m : MethodId) : Closed m fun x => ∀ N, Cites N N x where
  pure _ N := by rintro d _ _ ⟨⟩; exact id
  throw _ N := by rintro d _ _ ⟨⟩
  bind hx hf N := (hx N).bind fun a => hf a N
  tell _ _ N := cites_lift (m := m) (fun _ => .refl) fun _ _ => id
  newVar name ty source N := cites_newVar name ty source
  temp base ty N := cites_temp base ty
  localVar l decl N := cites_localVar l decl
  addStmt hs N := cites_addStmt hs
  interface hf N := cites_lift ((closed_edits m).interface hf) fun _ _ => id
  call kind target lhs _ _ hx hy N := (cites_mention target).bind fun _ => (hx _).bind
    fun receiver => (hy _).bind fun args => cites_addCall kind target receiver lhs args

end Lower

/-- When a method is lowered without error, each method that is mentioned is the target of one of
its call sites. -/
theorem Program.target_of_mention {p : Program} {m k : MethodId}
    (hok : (p.lowering m).1 = .ok ()) (hk : .method k ∈ (p.lowering m).2.mentions) :
    ∃ t ∈ (p.code m).sites, t.target = k := by
  have hcites := (Lower.closed_cites m).method p (fun _ => False) { code := { built := true } } ()
    (p.lowering m).2 (Prod.ext hok rfl) (by rintro _ ⟨⟩)
  exact (hcites k hk).resolve_left id

end PointsTo
