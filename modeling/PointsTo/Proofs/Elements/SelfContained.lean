import PointsTo.Proofs.CallGraph.Reachability
import PointsTo.Proofs.Code.Yields

/-!
# Lowered methods are self-contained

When methods are lowered and nothing else is asked of the tables, the code of a method refers to
nothing but variables of the method, and all of them hold references. This includes methods whose
lowering stopped at a fault, and those without body.

* `Code.Refers`: a variable of a method that holds references;
* `Program.isReference_of_mem_vars`: lowering makes no other variables, be there a body
  (`Code.Made.isReference`) or not (`Lower.bodiless_run`);
* `Elements.SelfContained`: all parts of the code of a method are such variables, returned variables
  are listed once, and each call site is owned by the only call on it;
* `Elements.selfContained_of_isBuilt`: so it is with each method that was lowered.
-/

namespace PointsTo

/-- The variables that occur in a statement. -/
def Stmt.vars : Stmt → List VarId
  | .alloc lhs _ => [lhs]
  | .assign lhs rhs => [lhs, rhs]
  | .load lhs base _ => [lhs, base]
  | .store base _ rhs => [base, rhs]
  | .call _ lhs => lhs.toList

/-- The receiver and the arguments of a call site. -/
def CallSite.vars (t : CallSite) : List VarId := t.receiver.toList ++ t.args.filterMap id

/-! ### Variables hold references -/

namespace Code

variable {m : MethodId} {c c₁ : Code}

/-- `v` is a variable of `m` that holds references. -/
def Refers (c : Code) (m : MethodId) (v : VarId) : Prop :=
  v.method = m ∧ ∃ x, c.vars[v.slot]? = some x ∧ x.ty.isReference = true

theorem Fits.hasVar_of_mem {i : Nat} {s : Stmt} (h : c.Fits m i s) :
    ∀ v ∈ s.vars, c.HasVar m v := by
  cases s with
  | alloc | assign | load | store => simpa [Stmt.vars, Fits] using h
  | call site lhs =>
    intro v hv
    exact h.2.1 v (Option.mem_toList.1 hv)

theorem FitsSite.hasVar_of_mem {t : CallSite} (h : c.FitsSite m t) :
    ∀ v ∈ t.vars, c.HasVar m v := by
  intro v hv
  rcases List.mem_append.1 hv with hv | hv
  · exact h.1 v (Option.mem_toList.1 hv)
  · exact h.2 v (by simpa using hv)

theorem isReference_read (h : ∀ x ∈ c.vars, x.ty.isReference = true) (r : Read) :
    ∀ x ∈ (c.read r).vars, x.ty.isReference = true := by
  intro x hx
  cases r with
  | «local» l decl href =>
    rw [read] at hx
    split at hx
    · exact h x hx
    · rcases List.mem_append.1 hx with hx | hx
      · exact h x hx
      · rw [List.mem_singleton.1 hx]
        exact href
  | null =>
    rcases List.mem_append.1 hx with hx | hx
    · exact h x hx
    · rw [List.mem_singleton.1 hx]
      rfl

theorem isReference_foldl_read (rs : List Read) (h : ∀ x ∈ c.vars, x.ty.isReference = true) :
    ∀ x ∈ (rs.foldl read c).vars, x.ty.isReference = true := by
  induction rs generalizing c with
  | nil => exact h
  | cons r rs ih => exact ih (isReference_read h r)

/-- Only what holds references is read. -/
theorem Made.isReference {ys : List Yield} {rs : List Read} (h : Made m ys rs c c₁)
    (hc : ∀ x ∈ c.vars, x.ty.isReference = true) : ∀ x ∈ c₁.vars, x.ty.isReference = true := by
  intro x hx
  have hbare : x.bare ∈ c₁.naming.1 := List.mem_map_of_mem hx
  rw [h.naming_eq] at hbare
  obtain ⟨y, hy, heq⟩ := List.mem_map.1 hbare
  have hty : y.bare.ty = x.bare.ty := by rw [heq]
  rw [show x.ty = y.ty from hty.symm]
  exact isReference_foldl_read rs hc y hy

end Code

/-! ### Methods without body -/

/-- The code `c'` is `c` with further variables, which hold references. -/
def Code.Supplied (c c' : Code) : Prop :=
  ∃ new : List Var, (∀ x ∈ new, x.ty.isReference = true) ∧ c' = { c with vars := c.vars ++ new }

theorem Code.Supplied.refl (c : Code) : c.Supplied c :=
  ⟨[], List.forall_mem_nil _, by rw [List.append_nil]⟩

theorem Code.Supplied.trans {c c₁ c₂ : Code} (h : c.Supplied c₁) (h' : c₁.Supplied c₂) :
    c.Supplied c₂ := by
  obtain ⟨new, hnew, rfl⟩ := h
  obtain ⟨new', hnew', rfl⟩ := h'
  refine ⟨new ++ new', fun x hx => (List.mem_append.1 hx).elim (hnew x) (hnew' x), ?_⟩
  simp only [List.append_assoc]

namespace Lower

/-- The step succeeds with a result that `Q` holds of, and makes variables that hold references. -/
def Supplies {α : Type} (x : Lower α) (Q : α → Prop) : Prop :=
  ∀ d : Draft, ∃ a d', x.run d = (.ok a, d') ∧ Q a ∧ d.code.Supplied d'.code

namespace Supplies

variable {α β : Type} {x : Lower α} {Q : α → Prop}

theorem pure {a : α} (h : Q a) : Supplies (pure a) Q := fun d => ⟨a, d, rfl, h, .refl _⟩

theorem bind {f : α → Lower β} {R : β → Prop} (hx : Supplies x Q)
    (hf : ∀ a, Q a → Supplies (f a) R) : Supplies (x >>= f) R := by
  intro d
  obtain ⟨a, d₁, hrun, ha, hsupplied⟩ := hx d
  obtain ⟨r, d₂, hrun', hr, hsupplied'⟩ := hf a ha d₁
  rw [run_bind, hrun]
  exact ⟨r, d₂, hrun', hr, hsupplied.trans hsupplied'⟩

theorem newVar (m : MethodId) (name : String) {ty : Ty} (hty : ty.isReference = true) :
    Supplies (liftM (Drafting.newVar m name ty none)) fun _ => True := fun _ =>
  ⟨_, _, rfl, trivial, [{ name, ty }], by simpa using hty, rfl⟩

theorem mapM {f : β → Lower α} (hf : ∀ b, Supplies (f b) fun _ => True) (l : List β) :
    Supplies (l.mapM f) fun as => as.length = l.length := by
  induction l with
  | nil => exact .pure rfl
  | cons b l ih =>
    rw [List.mapM_cons]
    refine (hf b).bind fun a _ => ih.bind fun as has => .pure ?_
    rw [List.length_cons, has, List.length_cons]

end Supplies

variable {p : Program} {m : MethodId}

/-- A parameter has a variable if it is a reference. -/
def parameterVar (m : MethodId) (x : Nat × Ty) : Lower (Option VarId) := do
  if x.2.isReference then
    return some (← Drafting.newVar m ("@parameter" ++ Text.decimal x.1) x.2 none)
  else return none

theorem supplies_parameterVar (x : Nat × Ty) : Supplies (parameterVar m x) fun _ => True := by
  unfold parameterVar
  split <;> rename_i hty
  · exact (Supplies.newVar m _ hty).bind fun _ _ => .pure trivial
  · exact .pure trivial

/-- The result has a variable if it is a reference. -/
def resultVar (m : MethodId) (result : Option Ty) : Lower Unit := do
  if let some ty := result then
    if ty.isReference then
      let result ← Drafting.newVar m "@return" ty none
      Drafting.edit fun c => { c with returns := c.returns ++ [result] }

theorem resultVar_run (result : Option Ty) (d : Draft) : ∃ returns : List VarId,
    returns.Nodup ∧ (result.any Ty.isReference = false → returns = []) ∧
    Code.Supplied { d.code with returns := d.code.returns ++ returns }
      ((resultVar m result).run d).2.code := by
  have hnone : Code.Supplied { d.code with returns := d.code.returns ++ [] } d.code :=
    ⟨[], List.forall_mem_nil _, by simp⟩
  cases result with
  | none => exact ⟨[], List.nodup_nil, fun _ => rfl, hnone⟩
  | some ty =>
    cases hty : ty.isReference with
    | false =>
      simp only [resultVar, hty, Bool.false_eq_true, if_false]
      exact ⟨[], List.nodup_nil, fun _ => rfl, hnone⟩
    | true =>
      simp only [resultVar, hty, if_true]
      refine ⟨[⟨m, d.code.vars.length⟩], List.nodup_singleton _, ?_, [{ name := "@return", ty }],
        ?_, rfl⟩
      · rw [Option.any_some, hty]
        rintro ⟨⟩
      · simpa using hty

/-- Lowering of a method without body, after the receiver. -/
def bodilessRest (p : Program) (m : MethodId) : Lower Unit := do
  let params ← ((p.method m).params.mapIdx fun i ty => (i, ty)).mapM (parameterVar m)
  Drafting.edit fun c => { c with params }
  resultVar m (p.method m).result

theorem bodilessRest_run (d : Draft) : ∃ params returns,
    params.length = (p.method m).params.length ∧ returns.Nodup ∧
    ((p.method m).returnsReference = false → returns = []) ∧
    Code.Supplied { d.code with params, returns := d.code.returns ++ returns }
      ((bodilessRest p m).run d).2.code := by
  have hparams := Supplies.mapM (supplies_parameterVar (m := m))
    ((p.method m).params.mapIdx fun i ty => (i, ty))
  obtain ⟨params, ⟨c, mentions, messages⟩, hrun, hlen, new, hnew, rfl⟩ := hparams d
  rw [List.length_mapIdx] at hlen
  unfold bodilessRest
  rw [run_bind, hrun]
  obtain ⟨returns, hnodup, hnil, hresult⟩ := resultVar_run (m := m) (p.method m).result
    { code := { d.code with vars := d.code.vars ++ new, params }, mentions, messages }
  have hsupplied : Code.Supplied { d.code with params, returns := d.code.returns ++ returns }
      { d.code with params, returns := d.code.returns ++ returns, vars := d.code.vars ++ new } :=
    ⟨new, hnew, rfl⟩
  exact ⟨params, returns, hlen, hnodup, hnil, hsupplied.trans hresult⟩

/-- Lowering a method without body makes up variables for what calls are bound to. -/
theorem bodiless_run (d : Draft) : ∃ this params returns,
    params.length = (p.method m).params.length ∧ returns.Nodup ∧
    ((p.method m).returnsReference = false → returns = []) ∧
    Code.Supplied { d.code with this, params, returns := d.code.returns ++ returns }
      ((bodiless p m).run d).2.code := by
  unfold bodiless
  simp only
  split
  · -- the variable of the receiver comes first
    let this : Var := { name := "@this", ty := .cls (p.method m).owner }
    obtain ⟨params, returns, hlen, hnodup, hnil, new, hnew, hcode⟩ :=
      bodilessRest_run (p := p) (m := m)
        { d with
          mentions := d.mentions ++ [.type this.ty]
          code := { d.code.pushVar this with this := some ⟨m, d.code.vars.length⟩ } }
    refine ⟨some ⟨m, d.code.vars.length⟩, params, returns, hlen, hnodup, hnil, this :: new, ?_, ?_⟩
    · rintro x (_ | ⟨_, hx⟩)
      · rfl
      · exact hnew x hx
    · refine Eq.trans hcode ?_
      simp [Code.pushVar]
  · obtain ⟨params, returns, hlen, hnodup, hnil, hsupplied⟩ :=
      bodilessRest_run (p := p) (m := m) d
    exact ⟨d.code.this, params, returns, hlen, hnodup, hnil, hsupplied⟩

end Lower

/-! ### The code of a program -/

namespace Program

variable {p : Program} {m : MethodId}

theorem body?_eq_none_iff : p.body? m = none ↔
    (p.method m).isNative = true ∨ (p.method m).isAbstract = true ∨ (p.method m).body = none := by
  rw [body?, MethodDecl.hasBody]
  cases (p.method m).isNative <;> cases (p.method m).isAbstract <;> simp

theorem exists_lowered_code {b : Body} (hb : p.body? m = some b) :
    ∃ ys ts, b.Lowered p m {} (p.lowering m).1 (p.code m) ys ts := by
  have hmethod : Lower.method p m = Lower.body p m b := by rw [Lower.method, hb]
  rw [code, lowering, hmethod]
  exact Lower.exists_lowered rfl rfl rfl rfl rfl

theorem supplied_code (hb : p.body? m = none) : ∃ this params returns,
    params.length = (p.method m).params.length ∧ returns.Nodup ∧
    ((p.method m).returnsReference = false → returns = []) ∧
    Code.Supplied { this, params, returns, built := true } (p.code m) := by
  rw [code, lowering, Lower.method, hb]
  simp only
  split
  · exact Lower.bodiless_run { code := { built := true }, messages := [⟨.warn, _⟩] }
  · exact Lower.bodiless_run { code := { built := true } }

/-- Lowering makes variables that hold references, and no others. -/
theorem isReference_of_mem_vars : ∀ x ∈ (p.code m).vars, x.ty.isReference = true := by
  cases hb : p.body? m with
  | some b =>
    obtain ⟨ys, ts, h⟩ := exists_lowered_code hb
    exact h.made.isReference (List.forall_mem_nil _)
  | none =>
    obtain ⟨this, params, returns, -, -, -, new, hnew, hcode⟩ := supplied_code hb
    rw [hcode]
    exact hnew

theorem refers_of_hasVar {v : VarId} (h : (p.code m).HasVar m v) : (p.code m).Refers m v :=
  ⟨h.1, _, List.getElem?_eq_getElem h.2, isReference_of_mem_vars _ (List.getElem_mem _)⟩

/-- Only a method whose result is a reference returns variables. -/
theorem returnsReference_of_yields {b : Body} {c : Code} {i : Instruction} {y : Yield}
    {ts : List VarId} {v : VarId} (h : Yields m b c p i y ts) (hv : y.result? = some v) :
    (p.method m).returnsReference = true := by
  cases h with
  | result href => exact href
  | @alloc l x | @load l r x => cases x <;> cases hv
  | @copy l r x y => cases x <;> cases y <;> cases hv
  | @store l x v y => cases y <;> cases hv
  | call | unfollowed | passedOver | invoke | ignored | silent => cases hv

theorem returns_code : (p.code m).returns.Nodup ∧
    ((p.method m).returnsReference = false → (p.code m).returns = []) := by
  cases hb : p.body? m with
  | some b =>
    obtain ⟨ys, ts, h⟩ := exists_lowered_code hb
    rw [h.returns_eq]
    refine ⟨Search.nodup_eraseDups _, fun href => ?_⟩
    have hnone : ys.filterMap Yield.result? = [] := by
      refine List.filterMap_eq_nil_iff.2 fun y hy => ?_
      obtain ⟨i, ts', hyields⟩ := h.yields.exists_of_mem hy
      cases hv : y.result? with
      | none => rfl
      | some v => cases href.symm.trans (returnsReference_of_yields hyields hv)
    rw [hnone]
    rfl
  | none =>
    obtain ⟨this, params, returns, -, hnodup, hnil, new, -, hcode⟩ := supplied_code hb
    rw [hcode]
    exact ⟨hnodup, hnil⟩

end Program

namespace Elements

/-- The code of a method refers to nothing but variables of the method that hold references, and is
consistent in itself. -/
structure SelfContained (e : Elements) (m : MethodId) : Prop where
  this : ∀ v, (e.code m).this = some v → (e.code m).Refers m v
  params : ∀ v, some v ∈ (e.code m).params → (e.code m).Refers m v
  returns : ∀ v ∈ (e.code m).returns, (e.code m).Refers m v
  stmts : ∀ x ∈ (e.code m).stmts, ∀ v ∈ x.stmt.vars, (e.code m).Refers m v
  sites : ∀ t ∈ (e.code m).sites, ∀ v ∈ t.vars, (e.code m).Refers m v
  /-- So does what receives the results of a call. -/
  results : ∀ id v, id.method = m → e.result? id = some v → (e.code m).Refers m v
  /-- Returned variables are listed once, and only if the result is a reference. -/
  returns_nodup : (e.code m).returns.Nodup
  returns_nil : (e.program.method m).returnsReference = false → (e.code m).returns = []
  /-- A call site is owned by a call of the body, and there is no other call on it. -/
  owner : ∀ id t, id.method = m → e.site? id = some t → ∃ s lhs, t.call = some s ∧
    s ∈ (e.code m).body ∧ e.Has s (.call id lhs) ∧ ∀ s' lhs', e.Has s' (.call id lhs') → s' = s
  /-- Without a body there are no statements, and one slot for each parameter. -/
  bodiless : (e.program.method m).isNative = true ∨ (e.program.method m).isAbstract = true ∨
    (e.program.method m).body = none →
    (e.code m).stmts = [] ∧ (e.code m).params.length = (e.program.method m).params.length

variable {p : Program} {e : Elements} {m : MethodId}

/-- Lowering methods keeps tables faithful. -/
theorem DevelopsBy.faithful_of_lower
    (h : ({ program := p } : Elements).DevelopsBy (fun _ r => ∃ m, r = .lower m) e) :
    e.Faithful := by
  induction h with
  | refl => exact Faithful.fresh p []
  | serve _ hr ih =>
    obtain ⟨m, rfl⟩ := hr
    exact ih.lower m
  | tell _ _ _ ih => exact ⟨ih.code_eq, ih.memo_eq⟩

/-- Only a call site has a variable for results. -/
theorem exists_site_of_result? {id : SiteId} {v : VarId} (h : e.result? id = some v) :
    ∃ t, e.site? id = some t := by
  cases ht : e.site? id with
  | some t => exact ⟨t, rfl⟩
  | none =>
    have hsite : e.site id = default := by
      rw [site, List.getD_eq_getElem?_getD, show (e.code id.method).sites[id.slot]? = none from ht]
      rfl
    rw [result?, hsite] at h
    cases h

/-- The owner of a call site is a call on it. -/
theorem Faithful.exists_owner (h : e.Faithful) {id : SiteId} {t : CallSite}
    (hm : e.isBuilt id.method = true) (ht : e.site? id = some t) : ∃ s x lhs,
    t.call = some s ∧ s.method = id.method ∧ e.stmt? s = some x ∧ x.stmt = .call id lhs := by
  have hcode := code_of_built h hm
  rw [site?, hcode] at ht
  obtain ⟨i, lhs, hcall, hst⟩ := (e.program.code_wellFormed id.method).site_call id.slot t ht
  obtain ⟨x, hx, hst⟩ := Option.map_eq_some_iff.1 hst
  exact ⟨⟨id.method, i⟩, x, lhs, hcall, rfl, (congrArg (·.stmts[i]?) hcode).trans hx, hst⟩

/-- A call owns its call site. -/
theorem Faithful.call_eq (h : e.Faithful) {s : StmtId} {id : SiteId} {lhs : Option VarId}
    {t : CallSite} (hs : e.Has s (.call id lhs)) (ht : e.site? id = some t) :
    t.call = some s := by
  have hm : e.isBuilt s.method = true := by
    rw [Has, stmt?, h.code_eq] at hs
    by_contra hnot
    rw [if_neg hnot] at hs
    cases hs
  rw [Has, stmt?_eq h hm] at hs
  obtain ⟨hmethod, hcall, -⟩ := Program.site_of_call hs
  rw [← site_of_site? ht, site_eq h (hmethod ▸ hm), hcall]

/-- Each method that was lowered is self-contained, when nothing but lowering was asked for. -/
theorem selfContained_of_isBuilt
    (h : ({ program := p } : Elements).DevelopsBy (fun _ r => ∃ m, r = .lower m) e)
    (hm : e.isBuilt m = true) : e.SelfContained m := by
  have hfaithful := h.faithful_of_lower
  have hcode := code_of_built hfaithful hm
  have hwell := e.program.code_wellFormed m
  have hstmts : ∀ x ∈ (e.code m).stmts, ∀ v ∈ x.stmt.vars, (e.code m).Refers m v := by
    rw [hcode]
    intro x hx v hv
    obtain ⟨i, hi⟩ := List.mem_iff_getElem?.1 hx
    exact Program.refers_of_hasVar ((hwell.fits i x hi).hasVar_of_mem v hv)
  refine
    { this := ?_
      params := ?_
      returns := ?_
      stmts := hstmts
      sites := ?_
      results := ?_
      returns_nodup := hcode ▸ Program.returns_code.1
      returns_nil := hcode ▸ Program.returns_code.2
      owner := ?_
      bodiless := ?_ }
  · rw [hcode]
    exact fun v hv => Program.refers_of_hasVar (hwell.this_has v hv)
  · rw [hcode]
    exact fun v hv => Program.refers_of_hasVar (hwell.params_have v hv)
  · rw [hcode]
    exact fun v hv => Program.refers_of_hasVar (hwell.returns_have v hv)
  · rw [hcode]
    intro t ht v hv
    obtain ⟨j, hj⟩ := List.mem_iff_getElem?.1 ht
    exact Program.refers_of_hasVar ((hwell.site_fits j t hj).hasVar_of_mem v hv)
  · rintro id v rfl hv
    obtain ⟨t, ht⟩ := exists_site_of_result? hv
    obtain ⟨s, x, lhs, hcall, hs, hx, hst⟩ := hfaithful.exists_owner hm ht
    rw [result?, site_of_site? ht, hcall, Option.map_some, stmt_of_stmt? hx, hst] at hv
    refine hstmts x (hs ▸ List.mem_of_getElem? hx) v ?_
    rw [hst]
    exact Option.mem_toList.2 hv
  · rintro id t rfl ht
    obtain ⟨s, x, lhs, hcall, hs, hx, hst⟩ := hfaithful.exists_owner hm ht
    refine ⟨s, lhs, hcall, ?_, ?_, ?_⟩
    · rw [hcode]
      rw [stmt?, hs, hcode] at hx
      exact Program.mem_body_iff.2 ⟨hs, (List.getElem?_eq_some_iff.1 hx).1⟩
    · exact has_iff.2 ⟨x, hx, hst⟩
    · intro s' lhs' hs'
      exact Option.some.inj ((hfaithful.call_eq hs' ht).symm.trans hcall)
  · intro hb
    obtain ⟨this, params, returns, hlen, -, -, new, -, heq⟩ :=
      Program.supplied_code (Program.body?_eq_none_iff.2 hb)
    rw [hcode, heq]
    exact ⟨rfl, hlen⟩

/-- The lowering of the first method stops at a fault, and the second one has no body. -/
theorem selfContained_of_isBuilt_stumbling :
    let e := ((({ program := .stumbling } : Elements).serve (.lower ⟨0⟩)).2.serve (.lower ⟨1⟩)).2
    e.isBuilt ⟨0⟩ = true ∧ e.SelfContained ⟨0⟩ ∧ (e.code ⟨0⟩).body.length = 4 ∧
      e.result? ⟨⟨0⟩, 0⟩ = some ⟨⟨0⟩, 2⟩ ∧
      e.isBuilt ⟨1⟩ = true ∧ e.SelfContained ⟨1⟩ ∧
      (e.code ⟨1⟩).params = [some ⟨⟨1⟩, 1⟩, none] ∧ (e.code ⟨1⟩).returns = [⟨⟨1⟩, 2⟩] := by
  intro e
  have h : ({ program := .stumbling } : Elements).DevelopsBy (fun _ r => ∃ m, r = .lower m) e :=
    .serve (.serve .refl ⟨_, rfl⟩) ⟨_, rfl⟩
  have hm : e.isBuilt ⟨0⟩ = true := by decide +kernel
  have hm' : e.isBuilt ⟨1⟩ = true := by decide +kernel
  exact ⟨hm, selfContained_of_isBuilt h hm, by decide +kernel, by decide +kernel, hm',
    selfContained_of_isBuilt h hm', by decide +kernel, by decide +kernel⟩

end Elements

end PointsTo
