import PointsTo.Proofs.Code.WellFormed

/-!
# Lowering yields well-formed code

Lowering a method is a function of the program alone: `Program.lowering` is its outcome on fresh
code and `Program.code` the code that it leaves, also when it fails. The main statement is
`Program.code_wellFormed`.

A step of lowering is specified by a triple (`Lower.Triple`): from code with some property it makes
code with this property and no fewer variables, and when it succeeds its result meets a
postcondition. The code that is there when a step fails is covered as well, since it stays. The
property can be any that is kept when things are made of variables that are there (`Lower.Kept`);
being well formed is one.
-/

namespace PointsTo

namespace Lower

/-! ### Triples -/

/-- The code `c'` has the property `W` and the variables of `c`. -/
structure Follows (W : Code → Prop) (c c' : Code) : Prop where
  kept : W c'
  vars_le : c.vars.length ≤ c'.vars.length
  built_eq : c'.built = c.built

/-- Started on code with `W` and `P`, the step leaves code with `W`, and a result with `Q`. -/
def Triple {α : Type} (W P : Code → Prop) (x : Lower α) (Q : α → Code → Prop) : Prop :=
  ∀ d : Draft, W d.code → P d.code →
    Follows W d.code (x.run d).2.code ∧ ∀ a, (x.run d).1 = .ok a → Q a (x.run d).2.code

variable {α β : Type} {W : Code → Prop}

theorem Follows.refl {c : Code} (h : W c) : Follows W c c := ⟨h, Nat.le_refl _, rfl⟩

theorem Follows.trans {c₁ c₂ c₃ : Code} (h : Follows W c₁ c₂) (h' : Follows W c₂ c₃) :
    Follows W c₁ c₃ :=
  ⟨h'.kept, Nat.le_trans h.vars_le h'.vars_le, h'.built_eq.trans h.built_eq⟩

theorem run_bind (x : Lower α) (f : α → Lower β) (d : Draft) :
    (x >>= f).run d = match x.run d with
      | (.ok a, d') => (f a).run d'
      | (.error e, d') => (.error e, d') := by
  show ExceptT.bindCont f (x.run d).1 (x.run d).2 = _
  rcases x.run d with ⟨_ | _, _⟩ <;> rfl

namespace Triple

variable {P P' R : Code → Prop} {x : Lower α} {Q Q' : α → Code → Prop}

theorem pure {a : α} (h : ∀ c, P c → Q a c) : Triple W P (pure a) Q := by
  intro d hw hP
  refine ⟨Follows.refl hw, fun b hb => ?_⟩
  cases hb
  exact h _ hP

theorem throw {e : Error} : Triple W P (throw e : Lower α) Q := by
  intro d hw _
  exact ⟨Follows.refl hw, fun b hb => nomatch hb⟩

theorem bind {f : α → Lower β} {S : β → Code → Prop} (hx : Triple W P x Q)
    (hf : ∀ a, Triple W (Q a) (f a) S) : Triple W P (x >>= f) S := by
  intro d hw hP
  obtain ⟨hstep, hQ⟩ := hx d hw hP
  rw [run_bind]
  rcases hr : x.run d with ⟨_ | a, d'⟩
  · rw [hr] at hstep
    exact ⟨hstep, fun b hb => nomatch hb⟩
  · rw [hr] at hstep hQ
    obtain ⟨hstep', hS⟩ := hf a d' hstep.kept (hQ a rfl)
    exact ⟨hstep.trans hstep', hS⟩

theorem lift {y : Drafting α} (h : ∀ d, W d.code → P d.code →
    Follows W d.code (y d).2.code ∧ Q (y d).1 (y d).2.code) :
    Triple W P (liftM y) Q := by
  intro d hw hP
  obtain ⟨hstep, hQ⟩ := h d hw hP
  refine ⟨hstep, fun a ha => ?_⟩
  cases ha
  exact hQ

theorem conseq (h : Triple W P x Q) (hP : ∀ c, P' c → P c) (hQ : ∀ a c, Q a c → Q' a c) :
    Triple W P' x Q' := by
  intro d hw hp
  obtain ⟨hstep, hq⟩ := h d hw (hP _ hp)
  exact ⟨hstep, fun a ha => hQ a _ (hq a ha)⟩

/-- What holds of code with enough variables is kept by every step. -/
theorem frame (h : Triple W P x Q)
    (hR : ∀ c c' : Code, c.vars.length ≤ c'.vars.length → R c → R c') :
    Triple W (fun c => P c ∧ R c) x (fun a c => Q a c ∧ R c) := by
  intro d hw hp
  obtain ⟨hstep, hq⟩ := h d hw hp.1
  exact ⟨hstep, fun a ha => ⟨hq a ha, hR _ _ hstep.vars_le hp.2⟩⟩

/-- One step after the other, with something that every step keeps. -/
theorem bindKeep {f : α → Lower β} {S : β → Code → Prop} (hx : Triple W (fun _ => True) x Q)
    (hR : ∀ c c' : Code, c.vars.length ≤ c'.vars.length → R c → R c')
    (hf : ∀ a, Triple W (fun c => Q a c ∧ R c) (f a) S) : Triple W R (x >>= f) S :=
  ((hx.frame hR).conseq (fun _ h => ⟨trivial, h⟩) fun _ _ => id).bind hf

theorem forM {f : β → Lower Unit} (h : ∀ b, Triple W (fun _ => True) (f b) fun _ _ => True)
    (l : List β) : Triple W (fun _ => True) (l.forM f) fun _ _ => True := by
  induction l with
  | nil => exact Triple.pure fun _ _ => trivial
  | cons b l ih => exact (h b).bind fun _ => ih

/-- Results of steps on the members of a list; what holds of one result is kept by later steps. -/
theorem mapM {f : β → Lower α} {T : α → Code → Prop}
    (h : ∀ b, Triple W (fun _ => True) (f b) T)
    (hT : ∀ a (c c' : Code), c.vars.length ≤ c'.vars.length → T a c → T a c') (l : List β) :
    Triple W (fun _ => True) (l.mapM f) fun as c => ∀ a ∈ as, T a c := by
  induction l with
  | nil => exact Triple.pure fun _ _ a ha => nomatch ha
  | cons b l ih =>
    rw [List.mapM_cons]
    refine (h b).bind fun a => ?_
    refine ih.bindKeep (hT a) fun as => ?_
    exact Triple.pure fun c hc a' ha' => (List.mem_cons.1 ha').elim (fun e => e ▸ hc.2) (hc.1 a')

end Triple

/-! ### Steps -/

/-- A property of the code of `m` that is kept when things are made of variables that are there. -/
structure Kept (m : MethodId) (W : Code → Prop) : Prop where
  var : ∀ {c : Code} {x : Var}, W c → x.dependents = [] → W (c.pushVar x)
  temp : ∀ {c : Code}, W c → W { c with temps := c.temps + 1 }
  stmt : ∀ {c : Code} {s : Stmt}, W c → c.Fits m c.stmts.length s →
    (∀ site lhs, s ≠ .call site lhs) → W (c.addStmt m s)
  call : ∀ {c : Code} {t : CallSite} {lhs : Option VarId}, W c → c.FitsSite m t → t.call = none →
    (∀ v, lhs = some v → c.HasVar m v) →
    W ((c.pushSite t).addStmt m (.call ⟨m, c.sites.length⟩ lhs))
  bodySite : ∀ {c : Code} (id : SiteId), W c → W { c with bodySites := c.bodySites ++ [id] }
  this : ∀ {c : Code} {this : Option VarId}, W c → (∀ v, this = some v → c.HasVar m v) →
    W { c with this }
  params : ∀ {c : Code} {params : List (Option VarId)}, W c →
    (∀ v, some v ∈ params → c.HasVar m v) → W { c with params }
  returns : ∀ {c : Code} {returns : List VarId}, W c →
    (∀ v ∈ returns, v ∈ c.returns ∨ c.HasVar m v) → W { c with returns }

variable {m : MethodId}

/-- A variable that may be missing is one of the code. -/
def Known (m : MethodId) (v : Option VarId) (c : Code) : Prop :=
  ∀ w, v = some w → c.HasVar m w

theorem Known.mono {v : Option VarId} {c c' : Code} (hle : c.vars.length ≤ c'.vars.length)
    (h : Known m v c) : Known m v c' := fun w hw => (h w hw).mono hle

/-- Steps that leave the code alone. -/
theorem triple_silent {P : Code → Prop} {y : Drafting Unit} (h : ∀ d, (y d).2.code = d.code) :
    Triple W P (liftM y) fun _ => P := by
  refine Triple.lift fun d hw hP => ?_
  rw [h d]
  exact ⟨Follows.refl hw, hP⟩

theorem triple_skip (p : Program) (v : Value) :
    Triple W (fun _ => True) (skip p m v) fun _ _ => True :=
  (triple_silent (P := fun _ => True) fun _ => rfl).conseq (fun _ => id) fun _ _ _ => trivial

/-- A change of the code that leaves its variables alone. -/
theorem triple_edit {P : Code → Prop} {f : Code → Code} (h : ∀ c, W c → P c → W (f c))
    (hv : ∀ c, (f c).vars = c.vars) (hb : ∀ c, (f c).built = c.built) :
    Triple W P (liftM (Drafting.edit f)) fun _ _ => True :=
  Triple.lift fun d hw hP =>
    ⟨⟨h _ hw hP, Nat.le_of_eq (congrArg _ (hv d.code).symm), hb _⟩, trivial⟩

/-- Mentioning entities leaves the code alone. -/
theorem code_forM_mention (l : List Mention) (d : Draft) :
    (l.forM Drafting.mention d).2.code = d.code := by
  induction l generalizing d with
  | nil => rfl
  | cons x l ih => exact ih _

/-- A local has one variable, which is made when it is first asked for. -/
theorem localVar_run (l : LocalId) (decl : LocalDecl) (d : Draft) :
    Drafting.localVar m l decl d =
      if decl.ty.isReference then
        match d.code.localSlot? l with
        | some slot => (some ⟨m, slot⟩, d)
        | none =>
          let r := Drafting.newVar m decl.name decl.ty (some l) d
          (some r.1, r.2)
      else (none, d) := by
  unfold Drafting.localVar
  split
  · show (match d.code.localSlot? l with | some _ => _ | none => _ : Drafting (Option VarId)) d = _
    cases d.code.localSlot? l <;> rfl
  · rfl

section

variable (hW : Kept m W)

include hW

/-- A new variable is one of the code. -/
theorem newVar_follows (name : String) (ty : Ty) (source : Option LocalId) (d : Draft)
    (hw : W d.code) :
    Follows W d.code (Drafting.newVar m name ty source d).2.code ∧
      (Drafting.newVar m name ty source d).2.code.HasVar m
        (Drafting.newVar m name ty source d).1 := by
  refine ⟨⟨hW.var hw rfl, ?_, rfl⟩, rfl, ?_⟩
  · show d.code.vars.length ≤ (d.code.pushVar { name, ty, source }).vars.length
    simp [Code.pushVar]
  · show d.code.vars.length < (d.code.pushVar { name, ty, source }).vars.length
    simp [Code.pushVar]

theorem triple_newVar (name : String) (ty : Ty) (source : Option LocalId) :
    Triple W (fun _ => True) (liftM (Drafting.newVar m name ty source)) fun v c => c.HasVar m v :=
  Triple.lift fun d hw _ => newVar_follows hW name ty source d hw

theorem triple_temp (base : String) (ty : Ty) :
    Triple W (fun _ => True) (liftM (Drafting.temp m base ty)) fun v c => c.HasVar m v := by
  refine Triple.lift fun d hw _ => ?_
  obtain ⟨h, hv⟩ := newVar_follows hW (base ++ Text.decimal (d.code.temps + 1)) ty none
    { d with code := { d.code with temps := d.code.temps + 1 } } (hW.temp hw)
  exact ⟨⟨h.kept, h.vars_le, h.built_eq⟩, hv⟩

theorem triple_addStmt {P : Code → Prop} {s : Stmt} (hs : ∀ c, P c → c.Fits m c.stmts.length s)
    (hcall : ∀ site lhs, s ≠ .call site lhs := by simp) :
    Triple W P (liftM (Drafting.addStmt m s)) fun _ _ => True := by
  refine Triple.lift fun d hw hP => ⟨?_, trivial⟩
  have hcode : (Drafting.addStmt m s d).2.code = d.code.addStmt m s :=
    congrArg (Code.addStmt · m s) (code_forM_mention s.mentions d)
  rw [hcode]
  refine ⟨hW.stmt hw (hs _ hP) hcall, ?_, (d.code.rest_addStmt m s).2.2.2.2.2⟩
  rw [Code.vars_addStmt]
  split <;> simp

theorem triple_addCall {kind : CallKind} {target : MethodId} {receiver lhs : Option VarId}
    {args : List (Option VarId)} :
    Triple W (fun c => (∀ a ∈ args, Known m a c) ∧ Known m receiver c ∧ Known m lhs c)
      (liftM (Drafting.addCall m kind target receiver args lhs)) fun _ _ => True := by
  refine Triple.lift fun d hw ⟨hargs, hr, hl⟩ => ⟨?_, trivial⟩
  let c := (d.code.pushSite { kind, target, receiver, args }).addStmt m
    (.call ⟨m, d.code.sites.length⟩ lhs)
  have hc : W c :=
    hW.call (t := { kind, target, receiver, args }) hw ⟨hr, fun v hv => hargs _ hv v rfl⟩ rfl hl
  show Follows W d.code { c with bodySites := c.bodySites ++ [⟨m, d.code.sites.length⟩] }
  have hbuilt : c.built = d.code.built :=
    ((d.code.pushSite { kind, target, receiver, args }).rest_addStmt m _).2.2.2.2.2
  refine ⟨hW.bodySite _ hc, ?_, hbuilt⟩
  show d.code.vars.length ≤ c.vars.length
  rw [Code.vars_addStmt]
  split <;> simp [Code.pushSite]

variable (p : Program) (b : Body)

theorem triple_localVar (l : LocalId) :
    Triple W (fun _ => True) (localVar p m b l) (Known m) := by
  unfold localVar
  split
  · rename_i decl _
    refine Triple.lift fun d hw _ => ?_
    rw [localVar_run]
    split
    · split
      · rename_i slot hs
        refine ⟨Follows.refl hw, fun w hw' => ?_⟩
        cases hw'
        exact ⟨rfl, (List.findIdx?_eq_some_iff_getElem.1 hs).1⟩
      · obtain ⟨h, hv⟩ := newVar_follows hW decl.name decl.ty (some l) d hw
        refine ⟨h, fun w hw' => ?_⟩
        cases hw'
        exact hv
    · exact ⟨Follows.refl hw, fun w hw' => nomatch hw'⟩
  · exact Triple.throw

theorem triple_base (l : LocalId) :
    Triple W (fun _ => True) (base p m b l) fun v c => c.HasVar m v := by
  refine (triple_localVar hW p b l).bind fun v => ?_
  cases v with
  | none => exact Triple.throw
  | some v => exact Triple.pure fun c hc => hc v rfl

theorem triple_operand (v : Value) :
    Triple W (fun _ => True) (operand p m b v) (Known m) := by
  cases v with
  | «local» l => exact triple_localVar hW p b l
  | null =>
    refine (triple_temp hW _ _).bind fun v => Triple.pure fun c hc w hw => ?_
    cases hw
    exact hc
  | int | long | double => exact Triple.pure fun _ _ w hw => nomatch hw
  | string | classConst =>
    exact (triple_silent (P := fun _ => True) fun _ => rfl).bind fun _ =>
      Triple.pure fun _ _ w hw => nomatch hw
  | _ => exact Triple.throw

theorem triple_call (i : Invocation Value) (lhs : Option VarId) :
    Triple W (Known m lhs) (call p m b i lhs) fun _ _ => True := by
  unfold call
  split
  · exact Triple.throw
  · rename_i kind _
    refine (triple_silent (P := Known m lhs) fun _ => rfl).bind fun _ => ?_
    -- the receiver and the arguments are found one after the other, with `lhs` at hand
    have hrest : ∀ receiver, Triple W (fun c => Known m receiver c ∧ Known m lhs c)
        (do
          let args ← i.args.mapM (operand p m b)
          liftM (Drafting.addCall m kind i.method receiver args lhs)) fun _ _ => True := by
      intro receiver
      refine (Triple.mapM (triple_operand hW p b) (fun _ _ _ => Known.mono) i.args).bindKeep
        (fun c c' hle h => ⟨h.1.mono hle, h.2.mono hle⟩) fun args => ?_
      exact triple_addCall hW
    cases hr : i.receiver with
    | none =>
      have hnone : ∀ c, Known m lhs c → Known m none c ∧ Known m lhs c :=
        fun c hc => ⟨fun w hw => (nomatch hw), hc⟩
      exact (Triple.pure (Q := fun r c => Known m r c ∧ Known m lhs c) hnone).bind hrest
    | some v => exact (triple_operand hW p b v).bindKeep (fun _ _ => Known.mono) hrest

theorem triple_assignLocal (l : LocalId) (rhs : Value) :
    Triple W (fun _ => True) (assignLocal p m b l rhs) fun _ _ => True := by
  refine (triple_localVar hW p b l).bind fun lhs => ?_
  cases rhs with
  | new c =>
    cases lhs with
    | none => exact Triple.pure fun _ _ => trivial
    | some v =>
      exact triple_addStmt hW fun c hc => hc v rfl
  | «local» r =>
    refine (triple_localVar hW p b r).bindKeep (fun _ _ => Known.mono) fun rhs => ?_
    cases lhs with
    | none => exact Triple.pure fun _ _ => trivial
    | some v =>
      cases rhs with
      | none => exact Triple.pure fun _ _ => trivial
      | some w =>
        exact triple_addStmt hW fun c hc => ⟨hc.2 v rfl, hc.1 w rfl⟩
  | field r f =>
    refine (triple_base hW p b r).bindKeep (fun _ _ => Known.mono) fun base => ?_
    cases lhs with
    | none => exact Triple.pure fun _ _ => trivial
    | some v =>
      exact triple_addStmt hW fun c hc => ⟨hc.2 v rfl, hc.1⟩
  | invoke i => exact triple_call hW p b i lhs
  | _ => exact (triple_skip p _).conseq (fun _ _ => trivial) fun _ _ => id

theorem triple_assignField (l : LocalId) (f : FieldId) (rhs : Value) :
    Triple W (fun _ => True) (assignField p m b l f rhs) fun _ _ => True := by
  refine (triple_base hW p b l).bind fun base => ?_
  refine (triple_operand hW p b rhs).bindKeep (fun _ _ hle h => h.mono hle) fun v => ?_
  cases v with
  | none => exact Triple.pure fun _ _ => trivial
  | some v =>
    exact triple_addStmt hW fun c hc => ⟨hc.2, hc.1 v rfl⟩

theorem triple_leave (v : Value) :
    Triple W (fun _ => True) (leave p m b v) fun _ _ => True := by
  unfold leave
  split
  · refine (triple_operand hW p b v).bind fun w => ?_
    cases w with
    | none => exact Triple.pure fun _ _ => trivial
    | some w =>
      refine triple_edit (fun c hc hw => hW.returns hc fun u hu => ?_) (fun _ => rfl) fun _ => rfl
      split at hu
      · exact .inl hu
      · rcases List.mem_append.1 hu with hu | hu
        · exact .inl hu
        · exact .inr (hw u (by rw [List.mem_singleton.1 hu]))
  · exact Triple.pure fun _ _ => trivial

theorem triple_instruction (i : Instruction) :
    Triple W (fun _ => True) (instruction p m b i) fun _ _ => True := by
  unfold instruction
  split
  · exact triple_assignLocal hW p b _ _
  · exact triple_assignField hW p b _ _ _
  · exact triple_skip p _
  · exact triple_skip p _
  · exact Triple.throw
  · exact (triple_call hW p b _ none).conseq (fun _ _ w hw => nomatch hw) fun _ _ => id
  · exact triple_leave hW p b _
  all_goals exact Triple.pure fun _ _ => trivial

/-! ### Methods -/

theorem triple_body : Triple W (fun _ => True) (body p m b) fun _ _ => True := by
  have hrest : Triple W (fun _ => True)
      (do
        let params ← b.paramLocals.mapM (localVar p m b)
        liftM (Drafting.edit fun c => { c with params })
        b.instructions.forM (instruction p m b)) fun _ _ => True := by
    refine (Triple.mapM (triple_localVar hW p b) (fun _ _ _ => Known.mono) _).bind fun params => ?_
    refine (triple_edit (f := fun c => { c with params }) (fun c hc hp => ?_) (fun _ => rfl)
      fun _ => rfl).bind fun _ => ?_
    · exact hW.params hc fun v hv => hp _ hv v rfl
    · exact Triple.forM (triple_instruction hW p b) _
  unfold body
  cases b.thisLocal with
  | none => exact hrest
  | some l =>
    refine (triple_localVar hW p b l).bind fun this => ?_
    exact (triple_edit (f := fun c => { c with this }) (fun c hc ht => hW.this hc ht)
      (fun _ => rfl) fun _ => rfl).bind fun _ => hrest

/-- The parameters of a method without body. -/
theorem triple_parameter (i : Nat) (ty : Ty) :
    Triple W (fun _ => True)
      (do
        if ty.isReference then
          return some (← liftM (Drafting.newVar m ("@parameter" ++ Text.decimal i) ty none))
        else return none : Lower (Option VarId)) (Known m) := by
  split
  · refine (triple_newVar hW _ _ _).bind fun v => Triple.pure fun c hc w hw => ?_
    cases hw
    exact hc
  · exact Triple.pure fun _ _ w hw => nomatch hw

theorem triple_result (result : Option Ty) :
    Triple W (fun _ => True)
      (do
        if let some ty := result then
          if ty.isReference then
            let result ← liftM (Drafting.newVar m "@return" ty none)
            liftM (Drafting.edit fun c => { c with returns := c.returns ++ [result] }) : Lower Unit)
      fun _ _ => True := by
  cases result with
  | none => exact Triple.pure fun _ _ => trivial
  | some ty =>
    simp only
    split
    · refine (triple_newVar hW _ _ _).bind fun r => ?_
      refine triple_edit (fun c hc hr => hW.returns hc fun v hv => ?_) (fun _ => rfl) fun _ => rfl
      rcases List.mem_append.1 hv with hv | hv
      · exact .inl hv
      · rw [List.mem_singleton.1 hv]
        exact .inr hr
    · exact Triple.pure fun _ _ => trivial

theorem triple_bodiless : Triple W (fun _ => True) (bodiless p m) fun _ _ => True := by
  unfold bodiless
  -- from the last step to the first: the result, the parameters, the receiver
  have hresult := triple_result hW (p.method m).result
  have hparams := (Triple.mapM (fun x : Nat × Ty => triple_parameter hW x.1 x.2)
    (fun _ _ _ => Known.mono) ((p.method m).params.mapIdx fun i ty => (i, ty))).bind
    fun params => (triple_edit (f := fun c => { c with params })
      (fun c hc hp => hW.params hc fun v hv => hp _ hv v rfl) (fun _ => rfl)
      fun _ => rfl).bind fun _ => hresult
  simp only
  split
  · refine (triple_newVar hW _ _ _).bind fun this => ?_
    refine (triple_edit (f := fun c => { c with this := some this }) (fun c hc ht => ?_)
      (fun _ => rfl) fun _ => rfl).bind fun _ => hparams
    refine hW.this hc fun v hv => ?_
    cases hv
    exact ht
  · exact hparams

theorem triple_method : Triple W (fun _ => True) (method p m) fun _ _ => True := by
  unfold method
  split
  · exact triple_body hW p _
  · split
    · exact (triple_silent (P := fun _ => True) fun _ => rfl).bind fun _ => triple_bodiless hW p
    · exact triple_bodiless hW p

end

/-- Being well formed is kept. -/
theorem kept_wellFormed (m : MethodId) : Kept m (Code.WellFormed m) where
  var h hx := h.pushVar hx
  temp h := { h with }
  stmt h hs hcall := h.addStmt hs hcall
  call h ht hnone hl := h.addCall ht hnone hl
  bodySite _ h := { h with }
  this h ht := { h with this_has := ht }
  params h hp := { h with params_have := hp }
  returns h hr := { h with returns_have := fun v hv => (hr v hv).elim (h.returns_have v) id }

end Lower

namespace Program

variable (p : Program) (m : MethodId)

/-- The outcome of lowering a method: whether it fails, and the code with what else it leaves. -/
def lowering : Except Error Unit × Draft :=
  (Lower.method p m).run { code := { built := true } }

/-- The code of a method. -/
def code : Code := (p.lowering m).2.code

theorem code_follows : Lower.Follows (Code.WellFormed m) { built := true } (p.code m) :=
  (Lower.triple_method (Lower.kept_wellFormed m) p { code := { built := true } } (.empty true)
    trivial).1

/-- **The code of a method is well formed.** -/
theorem code_wellFormed : (p.code m).WellFormed m := (p.code_follows m).kept

theorem built_code : (p.code m).built = true := (p.code_follows m).built_eq

end Program

end PointsTo
