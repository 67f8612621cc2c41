import PointsTo.Proofs.Elements.Growth

/-!
# Methods that keep to themselves

Lowering makes code whose parts all belong to one method. Whoever extends the tables can break this,
but need not: it is kept as long as variables, call sites and synthetic statements are added to
methods that were lowered before, and are made of parts of these methods.

* `Code.Local`: all parts of the code of a method belong to the method;
* `Elements.Local`: this holds of all methods, and there is no code of methods that were not
  lowered;
* `Request.Modest`: the requests that keep tables local, and `Elements.Evolves`: several of them
  (`Elements.Evolves.local`);
* such requests leave the bodies of lowered methods alone (`Elements.Evolves.body_eq`).
-/

namespace PointsTo

/-- The variables and the call site of the statement belong to `m`. -/
def Stmt.LocalTo (m : MethodId) : Stmt → Prop
  | .alloc lhs _ => lhs.method = m
  | .assign lhs rhs => lhs.method = m ∧ rhs.method = m
  | .load lhs base _ => lhs.method = m ∧ base.method = m
  | .store base _ rhs => base.method = m ∧ rhs.method = m
  | .call site lhs => site.method = m ∧ ∀ v, lhs = some v → v.method = m

/-- The receiver and the arguments of the call site belong to `m`. -/
structure CallSite.LocalTo (m : MethodId) (t : CallSite) : Prop where
  receiver : ∀ v, t.receiver = some v → v.method = m
  args : ∀ v, some v ∈ t.args → v.method = m

namespace Code

/-- All parts of the code belong to `m`, and the statements of the body are there. -/
structure Local (m : MethodId) (c : Code) : Prop where
  this : ∀ v, c.this = some v → v.method = m
  params : ∀ v, some v ∈ c.params → v.method = m
  returns : ∀ v ∈ c.returns, v.method = m
  body : ∀ s ∈ c.body, s.method = m ∧ s.slot < c.stmts.length
  stmts : ∀ x ∈ c.stmts, x.stmt.LocalTo m
  sites : ∀ t ∈ c.sites, t.LocalTo m
  dependents : ∀ x ∈ c.vars, ∀ s ∈ x.dependents, s.method = m

variable {m : MethodId} {c c₁ c₂ : Code}

theorem Fits.localTo {i : Nat} {s : Stmt} (h : c.Fits m i s) : s.LocalTo m := by
  cases s with
  | alloc lhs ty => exact h.1
  | assign lhs rhs => exact ⟨h.1.1, h.2.1⟩
  | load lhs base f => exact ⟨h.1.1, h.2.1⟩
  | store base f rhs => exact ⟨h.1.1, h.2.1⟩
  | call site lhs => exact ⟨h.1, fun v hv => (h.2.1 v hv).1⟩

theorem WellFormed.local (h : c.WellFormed m) : c.Local m where
  this v hv := (h.this_has v hv).1
  params v hv := (h.params_have v hv).1
  returns v hv := (h.returns_have v hv).1
  body s hs := by
    rw [h.body_eq, List.mem_map] at hs
    obtain ⟨i, hi, rfl⟩ := hs
    exact ⟨rfl, List.mem_range.1 hi⟩
  stmts x hx := by
    obtain ⟨i, hi⟩ := List.mem_iff_getElem?.1 hx
    exact (h.fits i x hi).localTo
  sites t ht := by
    obtain ⟨j, hj⟩ := List.mem_iff_getElem?.1 ht
    have hfits := h.site_fits j t hj
    exact ⟨fun v hv => (hfits.1 v hv).1, fun v hv => (hfits.2 v hv).1⟩
  dependents x hx s hs := by
    obtain ⟨j, hj⟩ := List.mem_iff_getElem?.1 hx
    exact ((h.dependents j x hj s).1 hs).1

/-- There is nothing in empty code. -/
theorem local_empty (m : MethodId) : ({} : Code).Local m := (WellFormed.empty false).local

/-- The code `c'` is `c` with further things that belong to `m`, none of them in the body. -/
structure Supplements (m : MethodId) (c c' : Code) : Prop where
  keeps_local : c.Local m → c'.Local m
  body_eq : c'.body = c.body
  built_eq : c'.built = c.built

namespace Supplements

theorem refl (m : MethodId) (c : Code) : Supplements m c c := ⟨id, rfl, rfl⟩

theorem trans (h₁ : Supplements m c c₁) (h₂ : Supplements m c₁ c₂) : Supplements m c c₂ :=
  ⟨fun h => h₂.keeps_local (h₁.keeps_local h), h₂.body_eq.trans h₁.body_eq,
    h₂.built_eq.trans h₁.built_eq⟩

theorem temp (m : MethodId) (c : Code) : Supplements m c { c with temps := c.temps + 1 } :=
  ⟨fun h => { h with }, rfl, rfl⟩

/-- No statement depends on a new variable. -/
theorem pushVar (c : Code) {x : Var} (hx : x.dependents = []) : Supplements m c (c.pushVar x) := by
  refine ⟨fun h => { h with dependents := fun y hy s hs => ?_ }, rfl, rfl⟩
  rcases List.mem_append.1 hy with hy | hy
  · exact h.dependents y hy s hs
  · rw [List.mem_singleton.1 hy, hx] at hs
    exact absurd hs List.not_mem_nil

theorem pushSite (c : Code) {t : CallSite} (ht : t.LocalTo m) : Supplements m c (c.pushSite t) := by
  refine ⟨fun h => { h with sites := fun t' ht' => ?_ }, rfl, rfl⟩
  rcases List.mem_append.1 ht' with ht' | ht'
  · exact h.sites t' ht'
  · rw [List.mem_singleton.1 ht']
    exact ht

/-- An owner changes nothing in what a call site says. -/
theorem bindSite (c : Code) (slot : Nat) (s : StmtId) : Supplements m c (c.bindSite slot s) := by
  refine ⟨fun h => { h with sites := fun t ht => ?_ }, rfl, rfl⟩
  obtain ⟨j, hj⟩ := List.mem_iff_getElem?.1 ht
  rw [Code.bindSite, List.getElem?_modify] at hj
  obtain ⟨t₀, ht₀, hmap⟩ := Option.map_eq_some_iff.1 hj
  have hlocal := h.sites t₀ (List.mem_of_getElem? ht₀)
  split at hmap <;> subst hmap
  · exact ⟨hlocal.receiver, hlocal.args⟩
  · exact hlocal

theorem pushStmt (c : Code) {s : Stmt} (hs : s.LocalTo m) :
    Supplements m c (c.pushStmt m s true) := by
  refine ⟨fun h => { h with body := fun s' hs' => ?_, stmts := fun x hx => ?_ }, rfl, rfl⟩
  · obtain ⟨hm, hslot⟩ := h.body s' hs'
    refine ⟨hm, Nat.lt_of_lt_of_le hslot ?_⟩
    simp [Code.pushStmt]
  · rcases List.mem_append.1 hx with hx | hx
    · exact h.stmts x hx
    · rw [List.mem_singleton.1 hx]
      exact hs

end Supplements

end Code

/-! ### Drafts -/

namespace Drafting

variable (m : MethodId) (d : Draft)

theorem newVar_supplements (name : String) (ty : Ty) (source : Option LocalId) :
    Code.Supplements m d.code (newVar m name ty source d).2.code :=
  .pushVar d.code (x := { name, ty, source }) rfl

theorem temp_supplements (base : String) (ty : Ty) :
    Code.Supplements m d.code (temp m base ty d).2.code :=
  (Code.Supplements.temp m d.code).trans (.pushVar _ rfl)

theorem localVar_supplements (l : LocalId) (decl : LocalDecl) :
    Code.Supplements m d.code (localVar m l decl d).2.code := by
  rw [Lower.localVar_run]
  split
  · split
    · exact .refl m d.code
    · exact newVar_supplements m d decl.name decl.ty (some l)
  · exact .refl m d.code

variable {m} in
theorem newSite_supplements (kind : CallKind) (target : MethodId) {receiver : Option VarId}
    {args : List (Option VarId)} (hr : ∀ v, receiver = some v → v.method = m)
    (ha : ∀ v, some v ∈ args → v.method = m) :
    Code.Supplements m d.code (newSite m kind target receiver args d).2.code :=
  .pushSite d.code (t := { kind, target, receiver, args }) ⟨hr, ha⟩

end Drafting

namespace Elements

/-- The code of every method belongs to it, and what was not lowered has none. -/
structure Local (e : Elements) : Prop where
  fresh : ∀ m, ¬ e.isBuilt m = true → e.code m = {}
  home : ∀ m, (e.code m).Local m

variable {e e₁ e₂ : Elements} {m : MethodId} {s : StmtId} {st : Stmt} {id : SiteId}

/-! ### Looking up -/

section

variable (h : e.Local)

include h

theorem Local.has (hs : e.Has s st) : st.LocalTo s.method := by
  obtain ⟨x, hx, rfl⟩ := has_iff.1 hs
  exact (h.home s.method).stmts x (List.mem_of_getElem? hx)

/-- The statements of a body are there. -/
theorem Local.exists_has (hs : s ∈ (e.code m).body) : s.method = m ∧ ∃ st, e.Has s st := by
  obtain ⟨rfl, hslot⟩ := (h.home m).body s hs
  exact ⟨rfl, _, has_iff.2 ⟨_, List.getElem?_eq_getElem hslot, rfl⟩⟩

/-- A call site that is not there has no parts. -/
theorem Local.site (id : SiteId) : (e.site id).LocalTo id.method := by
  rw [Elements.site, List.getD_eq_getElem?_getD]
  cases ht : (e.code id.method).sites[id.slot]? with
  | none => exact ⟨by rintro v ⟨⟩, by rintro v ⟨⟩⟩
  | some t => exact (h.home id.method).sites t (List.mem_of_getElem? ht)

theorem Local.var {v : VarId} (hs : s ∈ (e.var v).dependents) : s.method = v.method := by
  rw [Elements.var, List.getD_eq_getElem?_getD] at hs
  cases hx : (e.code v.method).vars[v.slot]? with
  | none =>
    rw [hx] at hs
    exact absurd hs (List.not_mem_nil (a := s))
  | some x =>
    rw [hx] at hs
    exact (h.home v.method).dependents x (List.mem_of_getElem? hx) s hs

/-- The results of a call go to a variable of the method that makes the call. -/
theorem Local.result (hsound : e.Sound) {v : VarId} (hv : e.result? id = some v) :
    v.method = id.method := by
  unfold result? at hv
  split at hv
  · rename_i id' lhs hcall
    obtain ⟨owner, howner, hst⟩ := Option.map_eq_some_iff.1 hcall
    cases hsite : e.site? id with
    | none =>
      have hdefault : e.site id = default := by
        rw [Elements.site, List.getD_eq_getElem?_getD,
          show (e.code id.method).sites[id.slot]? = none from hsite]
        rfl
      rw [hdefault] at howner
      cases howner
    | some t =>
      rw [site_of_site? hsite] at howner
      obtain ⟨lhs', hhas⟩ := hsound.owner id t owner hsite howner
      obtain ⟨x, hx, hx'⟩ := has_iff.1 hhas
      have hstmt : e.stmt owner = x := by rw [stmt, show e.stmt? owner = some x from hx]; rfl
      rw [hstmt, hx'] at hst
      cases hst
      obtain ⟨hid, hlhs⟩ := h.has hhas
      exact (hlhs v hv).trans hid.symm
  · cases hv

end

/-! ### Extending local tables -/

/-- Tables with the same code. -/
theorem Local.of_code_eq (h : e.Local) (hc : ∀ m, e₁.code m = e.code m) : e₁.Local where
  fresh m hm := by
    rw [isBuilt, hc] at hm
    rw [hc]
    exact h.fresh m hm
  home m := hc m ▸ h.home m

/-- The code of one method is exchanged for local code that counts as lowered. -/
theorem Local.exchange (h : e.Local) {c : Code}
    (hcode : ∀ m', e₁.code m' = if m' = m then c else e.code m') (hc : c.Local m)
    (hb : c.built = true) : e₁.Local where
  fresh m' hm' := by
    by_cases heq : m' = m
    · subst heq
      rw [isBuilt, hcode, if_pos rfl] at hm'
      exact absurd hb hm'
    · rw [isBuilt, hcode, if_neg heq] at hm'
      rw [hcode, if_neg heq]
      exact h.fresh m' hm'
  home m' := by
    rw [hcode]
    split
    · subst m'
      exact hc
    · exact h.home m'

/-- A statement that is not part of the body supplements the code of its method. -/
theorem code_addStmt (e : Elements) (hs : st.LocalTo m) :
    ∃ c, Code.Supplements m (e.code m) c ∧
      ∀ m', (e.addStmt m st true).2.code m' = if m' = m then c else e.code m' := by
  obtain ⟨-, -, hcode, hkeys⟩ := foldl_mention_frame st.mentions (e.addMethod m)
  set e₁ := st.mentions.foldl mention (e.addMethod m) with he₁
  replace hcode : ∀ m', e₁.code m' = e.code m' :=
    fun m' => (hcode m').trans (e.code_addMethod m m')
  have hm : m ∈ e₁.methods.keys := hkeys m (e.mem_keys_addMethod m)
  -- first the call site gets an owner, if need be
  obtain ⟨c, hc, hnoted⟩ : ∃ c, Code.Supplements m (e.code m) c ∧
      ∀ m', (e₁.noted m st true).code m' = if m' = m then c else e.code m' := by
    cases st with
    | alloc | assign | load | store =>
      refine ⟨e.code m, .refl m _, fun m' => (hcode m').trans ?_⟩
      split <;> rename_i heq
      · rw [heq]
      · rfl
    | call site lhs =>
      refine ⟨_, .bindSite _ site.slot (e₁.nextStmt m), fun m' => ?_⟩
      obtain ⟨rfl, -⟩ := hs
      refine (code_modifyCode e₁ hm _ m').trans ?_
      rw [hcode, hcode]
  unfold addStmt
  simp only [← he₁]
  split
  · refine ⟨_, hc.trans (.pushStmt c hs), fun m' => ?_⟩
    rw [code_place, code_modifyCode _ ((e₁.keys_noted m st true).symm ▸ hm), hnoted, hnoted,
      if_pos rfl]
    split <;> rfl
  · refine ⟨e.code m, .refl m _, fun m' => (hcode m').trans ?_⟩
    split <;> rename_i heq
    · rw [heq]
    · rfl

/-- What lowering a method does to local tables: its code is the one that the program gives. -/
theorem Local.code_lower (h : e.Local) (m : MethodId) :
    e.isBuilt m = true ∧ (∀ m', (e.lower m).2.code m' = e.code m') ∨
      ¬ e.isBuilt m = true ∧
        ∀ m', (e.lower m).2.code m' = if m' = m then e.program.code m else e.code m' := by
  by_cases hm : e.isBuilt m = true
  · exact .inl ⟨hm, code_lower_of_built hm⟩
  · refine .inr ⟨hm, fun m' => ?_⟩
    rw [code_lower_of_not_built hm, h.fresh m hm]
    rfl

end Elements

/-! ### Requests that keep tables local -/

/-- A request that leaves bodies alone. What it makes is for a method that was lowered, and of parts
of this method. -/
def Request.Modest (e : Elements) : Request → Prop
  | .type _ | .method _ | .field _ | .lower _ | .resolve _ | .dispatch _ _ => True
  | .localVar m _ _ | .newVar m _ _ | .temp m _ _ => e.isBuilt m = true
  | .newSite m _ _ receiver args => e.isBuilt m = true ∧
      (∀ v, receiver = some v → v.method = m) ∧ ∀ v, some v ∈ args → v.method = m
  | .addStmt m s synthetic => e.isBuilt m = true ∧ synthetic = true ∧ s.LocalTo m
  | .addCall _ _ _ _ _ _ _ => False

namespace Elements

variable {e e₁ e₂ : Elements} {m : MethodId}

/-- What a modest request does to code: nothing; something is added to a method that was lowered; or
a method is lowered. -/
theorem Local.serve_cases (h : e.Local) {r : Request} (hr : r.Modest e) :
    (∀ m', (e.serve r).2.code m' = e.code m') ∨
      ∃ m c, (∀ m', (e.serve r).2.code m' = if m' = m then c else e.code m') ∧
        (e.isBuilt m = true ∧ Code.Supplements m (e.code m) c ∨
          ¬ e.isBuilt m = true ∧ c = e.program.code m) := by
  cases r with
  | type t => exact .inl fun _ => rfl
  | method m => exact .inl (e.code_addMethod m)
  | field f => exact .inl (e.code_addField f)
  | localVar m l decl =>
    have hsupp := Drafting.localVar_supplements m { code := e.code m } l decl
    exact .inr ⟨m, _, e.code_draft m _, .inl ⟨hr, hsupp⟩⟩
  | newVar m name ty =>
    have hsupp := Drafting.newVar_supplements m { code := e.code m } name ty none
    exact .inr ⟨m, _, e.code_draft m _, .inl ⟨hr, hsupp⟩⟩
  | temp m base ty =>
    have hsupp := Drafting.temp_supplements m { code := e.code m } base ty
    exact .inr ⟨m, _, e.code_draft m _, .inl ⟨hr, hsupp⟩⟩
  | newSite m kind target receiver args =>
    obtain ⟨hb, hreceiver, hargs⟩ := hr
    have hsupp := Drafting.newSite_supplements { code := e.code m } kind target hreceiver hargs
    exact .inr ⟨m, _, e.code_draft m _, .inl ⟨hb, hsupp⟩⟩
  | addStmt m s synthetic =>
    obtain ⟨hb, rfl, hs⟩ := hr
    obtain ⟨c, hc, hcode⟩ := e.code_addStmt hs
    exact .inr ⟨m, c, hcode, .inl ⟨hb, hc⟩⟩
  | addCall => exact hr.elim
  | lower m =>
    rcases h.code_lower m with ⟨-, hcode⟩ | ⟨hb, hcode⟩
    · exact .inl hcode
    · exact .inr ⟨m, _, hcode, .inr ⟨hb, rfl⟩⟩
  | resolve signature =>
    left
    simp only [Elements.serve, resolve]
    split
    · exact fun _ => rfl
    · split
      · exact fun _ => rfl
      · exact e.code_addMethod _
  | dispatch t sub => exact .inl (e.code_dispatch t sub).2

theorem Local.serve (h : e.Local) {r : Request} (hr : r.Modest e) : (e.serve r).2.Local := by
  rcases h.serve_cases hr with hcode | ⟨m, c, hcode, ⟨hb, hc⟩ | ⟨-, rfl⟩⟩
  · exact h.of_code_eq hcode
  · exact h.exchange hcode (hc.keeps_local (h.home m)) (hc.built_eq.trans hb)
  · exact h.exchange hcode (e.program.code_wellFormed m).local (e.program.built_code m)

theorem Local.body_serve (h : e.Local) {r : Request} (hr : r.Modest e)
    (hm : e.isBuilt m = true) : ((e.serve r).2.code m).body = (e.code m).body := by
  rcases h.serve_cases hr with hcode | ⟨m', c, hcode, hc⟩ <;> rw [hcode]
  split <;> rename_i heq
  · subst heq
    rcases hc with ⟨-, hc⟩ | ⟨hb, -⟩
    · exact hc.body_eq
    · exact absurd hm hb
  · rfl

/-- The tables `e'` come from `e` by modest requests and lines of the log. -/
inductive Evolves (e : Elements) : Elements → Prop
  | refl : Evolves e e
  | serve {e' : Elements} (h : Evolves e e') {r : Request} (hr : r.Modest e') :
      Evolves e (e'.serve r).2
  | tell {e' : Elements} (h : Evolves e e') (level : Level) (text : String) :
      Evolves e (e'.tell level text)

namespace Evolves

theorem trans (h₁ : e.Evolves e₁) (h₂ : e₁.Evolves e₂) : e.Evolves e₂ := by
  induction h₂ with
  | refl => exact h₁
  | serve _ hr ih => exact ih.serve hr
  | tell _ level text ih => exact ih.tell level text

theorem develops (h : e.Evolves e₁) : e.Develops e₁ := by
  induction h with
  | refl => exact .refl
  | serve _ _ ih => exact ih.serve _
  | tell _ level text ih => exact ih.tell level text

theorem isBuilt (h : e.Evolves e₁) (hm : e.isBuilt m = true) : e₁.isBuilt m = true :=
  ((h.develops.grows.code m).built hm).1

theorem «local» (h : e.Evolves e₁) (he : e.Local) : e₁.Local := by
  induction h with
  | refl => exact he
  | serve _ hr ih => exact ih.serve hr
  | tell _ _ _ ih => exact ih.of_code_eq fun _ => rfl

/-- The body of a method does not change any more once it was lowered. -/
theorem body_eq (h : e.Evolves e₁) (he : e.Local) (hm : e.isBuilt m = true) :
    (e₁.code m).body = (e.code m).body := by
  induction h with
  | refl => rfl
  | serve h hr ih => exact ((h.local he).body_serve hr (h.isBuilt hm)).trans ih
  | tell _ _ _ ih => exact ih

end Evolves

/-- There is no code in tables in which nothing was entered. -/
theorem local_empty (p : Program) : ({ program := p } : Elements).Local where
  fresh _ _ := rfl
  home m := Code.local_empty m

end Elements

end PointsTo
