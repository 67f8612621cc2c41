import Mathlib.Data.List.Induction
import PointsTo.Proofs.Code.Reading
import PointsTo.Proofs.Elements.Bodies

/-!
# What lowering makes of a body

Each instruction of a body yields at most one statement, which is given by its shape. It is made of
the variables that were read, and nothing is made of an instruction with a fault or of those after
it.

* `Yields`: what an instruction yields, in terms of the code that lowering leaves;
* `Code.Made`: what the code is after some things were read and some were yielded;
* `Lower.makes_instruction`: lowering an instruction reads what is in it and makes what it yields;
* `Body.Lowered`: what lowering a body makes of code that was there before, and
  `Lower.exists_lowered`: so it does;
* `Elements.Develops.lowers_body`: so does the first lowering of a method, whatever was asked of the
  tables before.
-/

namespace PointsTo

/-- What an instruction yields. -/
inductive Yield where
  | nothing
  /-- A statement that is no call. -/
  | stmt (s : Stmt)
  /-- A call on a call site of its own, whose result goes to `lhs`. -/
  | call (t : CallSite) (lhs : Option VarId)
  /-- A variable that the method returns. -/
  | result (v : VarId)
deriving DecidableEq

namespace Yield

/-- A statement, if all its parts are there. -/
def ofStmt? : Option Stmt → Yield
  | some s => .stmt s
  | none => .nothing

/-- A returned variable, if there is one. -/
def ofResult? : Option VarId → Yield
  | some v => .result v
  | none => .nothing

def result? : Yield → Option VarId
  | .result v => some v
  | _ => none

/-- The statements that are yielded, when the next call site of `m` is at `slot`. -/
def stmts (m : MethodId) : Nat → List Yield → List Stmt
  | _, [] => []
  | slot, .stmt s :: ys => s :: stmts m slot ys
  | slot, .call _ lhs :: ys => .call ⟨m, slot⟩ lhs :: stmts m (slot + 1) ys
  | slot, .nothing :: ys | slot, .result _ :: ys => stmts m slot ys

/-- The call sites that are yielded, each with its call as owner, when the next statement of `m` is
at `slot`. -/
def sites (m : MethodId) : Nat → List Yield → List CallSite
  | _, [] => []
  | slot, .stmt _ :: ys => sites m (slot + 1) ys
  | slot, .call t _ :: ys => { t with call := some ⟨m, slot⟩ } :: sites m (slot + 1) ys
  | slot, .nothing :: ys | slot, .result _ :: ys => sites m slot ys

end Yield

/-! ### Instructions and what they yield -/

/-- Sources of an assignment to a local that the analysis follows. -/
def Value.isFollowed : Value → Bool
  | .new _ | .local _ | .field _ _ | .invoke _ => true
  | _ => false

/-- Targets of an assignment that the analysis passes over. -/
def Value.isPassedOver : Value → Bool
  | .staticField _ | .element _ _ => true
  | _ => false

/-- Instructions that move no values. -/
def Instruction.isSilent : Instruction → Bool
  | .leave none | .identity _ | .throw _ | .goto _ | .branch _ _ | .nop => true
  | _ => false

section

variable (m : MethodId) (b : Body) (c : Code)

/-- The variable of a receiver that need not be there. -/
inductive ReceiverAt : Option Value → Option VarId → List VarId → Prop
  | none : ReceiverAt none none []
  | some {v : Value} {x : Option VarId} {ts : List VarId} (h : OperandAt m b c v x ts) :
      ReceiverAt (some v) x ts

/-- The call site of an invocation: its kind is that of the opcode, and there is one slot for each
argument. -/
inductive CallAt (i : Invocation Value) : CallSite → List VarId → Prop
  | mk {kind : CallKind} {receiver : Option VarId} {args : List (Option VarId)}
      {ts ts' : List VarId} (hkind : CallKind.ofOpcode? i.opcode = some kind)
      (hreceiver : ReceiverAt m b c i.receiver receiver ts)
      (hargs : InTurn (OperandAt m b c) i.args args ts') :
      CallAt i { kind, target := i.method, receiver, args } (ts ++ ts')

/-- What an instruction yields, and the temporaries that it takes. -/
inductive Yields (p : Program) : Instruction → Yield → List VarId → Prop
  | alloc {l : LocalId} {x : Option VarId} (hl : LocalAt m b c l x) (k : ClassId) :
      Yields p (.assign (.local l) (.new k)) (.ofStmt? (x.map (.alloc · (.cls k)))) []
  | copy {l r : LocalId} {x y : Option VarId} (hl : LocalAt m b c l x) (hr : LocalAt m b c r y) :
      Yields p (.assign (.local l) (.local r)) (.ofStmt? (x.bind fun x => y.map (.assign x))) []
  | load {l r : LocalId} {x : Option VarId} {y : VarId} (hl : LocalAt m b c l x)
      (hr : LocalAt m b c r (some y)) (f : FieldId) :
      Yields p (.assign (.local l) (.field r f)) (.ofStmt? (x.map (.load · y f))) []
  | call {l : LocalId} {x : Option VarId} {i : Invocation Value} {t : CallSite} {ts : List VarId}
      (hl : LocalAt m b c l x) (hi : CallAt m b c i t ts) :
      Yields p (.assign (.local l) (.invoke i)) (.call t x) ts
  | unfollowed {l : LocalId} {x : Option VarId} {v : Value} (hl : LocalAt m b c l x)
      (hv : v.isFollowed = false) : Yields p (.assign (.local l) v) .nothing []
  | store {l : LocalId} {x : VarId} {v : Value} {y : Option VarId} {ts : List VarId}
      (hl : LocalAt m b c l (some x)) (f : FieldId) (hv : OperandAt m b c v y ts) :
      Yields p (.assign (.field l f) v) (.ofStmt? (y.map (.store x f))) ts
  | passedOver {lhs : Value} (h : lhs.isPassedOver = true) (v : Value) :
      Yields p (.assign lhs v) .nothing []
  | invoke {i : Invocation Value} {t : CallSite} {ts : List VarId} (hi : CallAt m b c i t ts) :
      Yields p (.invoke i) (.call t none) ts
  | result {v : Value} {x : Option VarId} {ts : List VarId}
      (href : (p.method m).returnsReference = true) (hv : OperandAt m b c v x ts) :
      Yields p (.leave (some v)) (.ofResult? x) ts
  | ignored (href : (p.method m).returnsReference = false) (v : Value) :
      Yields p (.leave (some v)) .nothing []
  | silent {i : Instruction} (h : i.isSilent = true) : Yields p i .nothing []

end

section

variable {m : MethodId} {b : Body} {c c₁ : Code}

theorem ReceiverAt.mono {v : Option Value} {x : Option VarId} {ts : List VarId}
    (h : ReceiverAt m b c v x ts) (hsources : c.sources <+: c₁.sources) :
    ReceiverAt m b c₁ v x ts := by
  cases h with
  | none => exact .none
  | some h => exact .some (h.mono hsources)

theorem CallAt.mono {i : Invocation Value} {t : CallSite} {ts : List VarId}
    (h : CallAt m b c i t ts) (hsources : c.sources <+: c₁.sources) : CallAt m b c₁ i t ts := by
  obtain ⟨hkind, hreceiver, hargs⟩ := h
  exact .mk hkind (hreceiver.mono hsources) (hargs.imp fun _ _ _ h => h.mono hsources)

theorem Yields.mono {p : Program} {i : Instruction} {y : Yield} {ts : List VarId}
    (h : Yields m b c p i y ts) (hsources : c.sources <+: c₁.sources) :
    Yields m b c₁ p i y ts := by
  cases h with
  | alloc hl k => exact .alloc (hl.mono hsources) k
  | copy hl hr => exact .copy (hl.mono hsources) (hr.mono hsources)
  | load hl hr f => exact .load (hl.mono hsources) (hr.mono hsources) f
  | call hl hi => exact .call (hl.mono hsources) (hi.mono hsources)
  | unfollowed hl hv => exact .unfollowed (hl.mono hsources) hv
  | store hl f hv => exact .store (hl.mono hsources) f (hv.mono hsources)
  | passedOver h v => exact .passedOver h v
  | invoke hi => exact .invoke (hi.mono hsources)
  | result href hv => exact .result href (hv.mono hsources)
  | ignored href v => exact .ignored href v
  | silent h => exact .silent h

end

/-! ### Putting in place what is yielded -/

namespace Yield

/-- What is yielded is put in its place. -/
def apply (m : MethodId) (c : Code) : Yield → Code
  | .nothing => c
  | .stmt s => c.addStmt m s
  | .call t lhs =>
    let c' := (c.pushSite t).addStmt m (.call ⟨m, c.sites.length⟩ lhs)
    { c' with bodySites := c'.bodySites ++ [⟨m, c.sites.length⟩] }
  | .result v => { c with returns := if v ∈ c.returns then c.returns else c.returns ++ [v] }

/-- Statements that are no calls, and call sites without owner. -/
def Proper : Yield → Prop
  | .stmt s => ∀ id lhs, s ≠ .call id lhs
  | .call t _ => t.call = none
  | .nothing | .result _ => True

end Yield

namespace Yield

variable (m : MethodId) (n k : Nat)

theorem stmts_append (ys ys' : List Yield) :
    stmts m n (ys ++ ys') = stmts m n ys ++ stmts m (n + (sites m k ys).length) ys' := by
  induction ys generalizing n k with
  | nil => rfl
  | cons y ys ih =>
    cases y with
    | nothing | result => exact ih _ _
    | stmt s => exact congrArg (s :: ·) (ih n (k + 1))
    | call t lhs =>
      have hlen : n + (sites m k (.call t lhs :: ys)).length =
          n + 1 + (sites m (k + 1) ys).length := by
        simp only [sites, List.length_cons]
        omega
      rw [hlen]
      exact congrArg (.call ⟨m, n⟩ lhs :: ·) (ih (n + 1) (k + 1))

theorem sites_append (ys ys' : List Yield) :
    sites m k (ys ++ ys') = sites m k ys ++ sites m (k + (stmts m n ys).length) ys' := by
  induction ys generalizing n k with
  | nil => rfl
  | cons y ys ih =>
    cases y with
    | nothing | result => exact ih _ _
    | stmt s =>
      have hlen : k + (stmts m n (.stmt s :: ys)).length = k + 1 + (stmts m n ys).length := by
        simp only [stmts, List.length_cons]
        omega
      rw [hlen]
      exact ih n (k + 1)
    | call t lhs =>
      have hlen : k + (stmts m n (.call t lhs :: ys)).length =
          k + 1 + (stmts m (n + 1) ys).length := by
        simp only [stmts, List.length_cons]
        omega
      rw [hlen]
      exact congrArg (_ :: ·) (ih (n + 1) (k + 1))

end Yield

theorem Yields.proper {m : MethodId} {b : Body} {c : Code} {p : Program} {i : Instruction}
    {y : Yield} {ts : List VarId} (h : Yields m b c p i y ts) : y.Proper := by
  cases h with
  | @alloc l x hl k => cases x <;> simp [Yield.ofStmt?, Yield.Proper]
  | @copy l r x y hl hr => cases x <;> cases y <;> simp [Yield.ofStmt?, Yield.Proper]
  | @load l r x y hl hr f => cases x <;> simp [Yield.ofStmt?, Yield.Proper]
  | @store l x v y ts hl f hv => cases y <;> simp [Yield.ofStmt?, Yield.Proper]
  | call _ hi | invoke hi =>
    obtain ⟨-, -, -⟩ := hi
    rfl
  | @result v x ts href hv => cases x <;> trivial
  | unfollowed | passedOver | ignored | silent => trivial

/-- What a variable is, without the statements that depend on it. -/
def Var.bare (x : Var) : Var := { name := x.name, ty := x.ty, source := x.source }

theorem Var.bare_register (x : Var) (role : Role) (s : StmtId) :
    (x.register role s).bare = x.bare := by
  cases role <;> rfl

namespace Code

/-- The variables and the number of temporaries. -/
def naming (c : Code) : List Var × Nat := (c.vars.map Var.bare, c.temps)

/-- The code `c'` is `c` after the things `rs` were read and `ys` were yielded, each in order. -/
structure Made (m : MethodId) (ys : List Yield) (rs : List Read) (c c' : Code) : Prop where
  this_eq : c'.this = c.this
  params_eq : c'.params = c.params
  built_eq : c'.built = c.built
  naming_eq : c'.naming = (rs.foldl read c).naming
  stmts_eq : c'.stmts = c.stmts ++ (Yield.stmts m c.sites.length ys).mapIdx fun k s =>
    ⟨s, c.body.length + k, false⟩
  body_eq : c'.body = c.body ++
    (List.range' c.stmts.length (Yield.stmts m c.sites.length ys).length).map (StmtId.mk m)
  sites_eq : c'.sites = c.sites ++ Yield.sites m c.stmts.length ys
  bodySites_eq : c'.bodySites = c.bodySites ++
    (List.range' c.sites.length (Yield.sites m c.stmts.length ys).length).map (SiteId.mk m)
  returns_eq : c'.returns = (ys.filterMap Yield.result?).foldl
    (fun vs v => if v ∈ vs then vs else vs ++ [v]) c.returns

variable {m : MethodId} {c c₁ c₂ : Code}

theorem sources_of_naming (h : c₁.naming = c.naming) : c₁.sources = c.sources := by
  have hbare : ∀ c : Code, c.sources = c.naming.1.map Var.source := fun c => by
    simp [sources, naming, Var.bare]
  rw [hbare, hbare, h]

/-- What is read makes the same variables in code with the same variables. -/
theorem naming_foldl_read (h : c₁.naming = c.naming) (rs : List Read) :
    (rs.foldl read c₁).naming = (rs.foldl read c).naming := by
  induction rs generalizing c c₁ with
  | nil => exact h
  | cons r rs ih =>
    refine ih ?_
    obtain ⟨hvars, htemps⟩ := Prod.mk.inj h
    cases r with
    | «local» l decl href =>
      simp only [read, localSlot?_eq, sources_of_naming h]
      split
      · exact h
      · simp [naming, pushVar, hvars, htemps]
    | null => simp [naming, read, pushVar, hvars, htemps]

namespace Made

variable {ys ys' : List Yield} {rs rs' : List Read}

theorem sources_isPrefix (h : Made m ys rs c c₁) : c.sources <+: c₁.sources :=
  sources_of_naming h.naming_eq ▸ sources_foldl_read rs c

/-- What stands for no local was made while reading. -/
theorem temporaries_eq (h : Made m ys rs c c₁) :
    c₁.temporaries m = (rs.foldl read c).temporaries m := by
  rw [temporaries, sources_of_naming h.naming_eq, temporaries]

/-- The receiver and the parameters do not matter. -/
theorem face (h : Made m ys rs c c₁) (this : Option VarId) (params : List (Option VarId)) :
    Made m ys rs { c with this, params } { c₁ with this, params } := by
  have hsame : ({ c with this, params } : Code).naming = c.naming := rfl
  exact { h with
    this_eq := rfl
    params_eq := rfl
    naming_eq := h.naming_eq.trans (naming_foldl_read hsame rs).symm }

theorem length_stmts (h : Made m ys rs c c₁) :
    c₁.stmts.length = c.stmts.length + (Yield.stmts m c.sites.length ys).length := by
  simp [h.stmts_eq]

theorem length_body (h : Made m ys rs c c₁) :
    c₁.body.length = c.body.length + (Yield.stmts m c.sites.length ys).length := by
  simp [h.body_eq]

theorem length_sites (h : Made m ys rs c c₁) :
    c₁.sites.length = c.sites.length + (Yield.sites m c.stmts.length ys).length := by
  simp [h.sites_eq]

theorem trans (h : Made m ys rs c c₁) (h' : Made m ys' rs' c₁ c₂) :
    Made m (ys ++ ys') (rs ++ rs') c c₂ := by
  have hstmts := Yield.stmts_append m c.sites.length c.stmts.length ys ys'
  have hsites := Yield.sites_append m c.sites.length c.stmts.length ys ys'
  rw [← h.length_sites] at hstmts
  rw [← h.length_stmts] at hsites
  refine
    { this_eq := h'.this_eq.trans h.this_eq
      params_eq := h'.params_eq.trans h.params_eq
      built_eq := h'.built_eq.trans h.built_eq
      naming_eq := ?_
      stmts_eq := ?_
      body_eq := ?_
      sites_eq := ?_
      bodySites_eq := ?_
      returns_eq := ?_ }
  · rw [h'.naming_eq, List.foldl_append, naming_foldl_read h.naming_eq]
  · rw [h'.stmts_eq, h.stmts_eq, hstmts, List.mapIdx_append, List.append_assoc, h.length_body]
    simp only [Nat.add_comm, Nat.add_left_comm]
  · rw [h'.body_eq, h.body_eq, hstmts, List.length_append, h.length_stmts, List.append_assoc,
      ← List.map_append, List.range'_append_1]
  · rw [h'.sites_eq, h.sites_eq, hsites, List.append_assoc]
  · rw [h'.bodySites_eq, h.bodySites_eq, hsites, List.length_append, h.length_sites,
      List.append_assoc, ← List.map_append, List.range'_append_1]
  · rw [h'.returns_eq, h.returns_eq, List.filterMap_append, List.foldl_append]

end Made

/-- Reading makes nothing but variables. -/
theorem made_read (c : Code) (r : Read) : Made m [] [r] c (c.read r) := by
  have hread : ∃ vars temps, c.read r = { c with vars, temps } := by
    cases r with
    | «local» l decl href =>
      rw [read]
      split
      · exact ⟨c.vars, c.temps, rfl⟩
      · exact ⟨_, c.temps, rfl⟩
    | null => exact ⟨_, _, rfl⟩
  obtain ⟨vars, temps, heq⟩ := hread
  refine ⟨?_, ?_, ?_, rfl, ?_, ?_, ?_, ?_, ?_⟩ <;> rw [heq] <;> simp [Yield.stmts, Yield.sites]

theorem made_reads (rs : List Read) (c : Code) : Made m [] rs c (rs.foldl read c) := by
  induction rs generalizing c with
  | nil => constructor <;> simp [Yield.stmts, Yield.sites]
  | cons r rs ih => exact (c.made_read r).trans (ih _)

theorem naming_addStmt (c : Code) (m : MethodId) (s : Stmt) :
    (c.addStmt m s).naming = c.naming ∧ (c.addStmt m s).bodySites = c.bodySites := by
  have hvars : (c.addStmt m s).vars.map Var.bare = c.vars.map Var.bare := by
    rw [vars_addStmt]
    split
    · exact Var.map_modify_register Var.bare_register _ _ _ _
    · rfl
  have hrest : (c.addStmt m s).temps = c.temps ∧ (c.addStmt m s).bodySites = c.bodySites := by
    cases s with
    | alloc | assign | load | store => exact ⟨rfl, rfl⟩
    | call site lhs =>
      simp only [addStmt]
      split <;> exact ⟨rfl, rfl⟩
  exact ⟨Prod.ext hvars hrest.1, hrest.2⟩

theorem made_apply (c : Code) {y : Yield} (hy : y.Proper) : Made m [y] [] c (y.apply m c) := by
  cases y with
  | nothing => exact { made_reads (m := m) [] c with }
  | stmt s =>
    have h := c.extends_addStmt (m := m) hy
    obtain ⟨hnaming, hbodySites⟩ := c.naming_addStmt m s
    obtain ⟨-, -, -, -, -, hbuilt⟩ := c.rest_addStmt m s
    exact ⟨h.this_eq, h.params_eq, hbuilt, hnaming, h.stmts_eq, h.body_eq, h.sites_eq,
      hbodySites.trans (List.append_nil _).symm, h.returns_eq⟩
  | call t lhs =>
    have h := c.extends_addCall (m := m) hy lhs
    obtain ⟨hnaming, hbodySites⟩ := (c.pushSite t).naming_addStmt m (.call ⟨m, c.sites.length⟩ lhs)
    obtain ⟨-, -, -, -, -, hbuilt⟩ := (c.pushSite t).rest_addStmt m (.call ⟨m, c.sites.length⟩ lhs)
    exact ⟨h.this_eq, h.params_eq, hbuilt, hnaming, h.stmts_eq, h.body_eq, h.sites_eq,
      congrArg (· ++ [_]) hbodySites, h.returns_eq⟩
  | result v => constructor <;> simp [Yield.apply, Yield.stmts, Yield.sites, naming, Yield.result?]

end Code

/-! ### Lowering instructions -/

namespace Lower

/-- A step that makes something of what it reads. -/
abbrev Makes (m : MethodId) (x : Lower Unit) (fs : Findings)
    (Q : Code → Yield → List VarId → Prop) : Prop :=
  Finds m (fun y c => ((), y.apply m c)) x fs Q

variable {m : MethodId} {p : Program} {b : Body}

/-- A step that makes something, without reading. -/
theorem makes_lift {z : Drafting Unit} {y : Yield} (h : ∀ d, (z d).2.code = y.apply m d.code) :
    Makes m (liftM z) [] fun _ y' ts => y' = y ∧ ts = [] :=
  Finds.lift (fun d => Prod.ext rfl (h d)) fun _ => ⟨rfl, rfl⟩

theorem makes_nothing : Makes m (pure ()) [] fun _ y ts => y = .nothing ∧ ts = [] :=
  makes_lift (z := pure ()) fun _ => rfl

theorem makes_skip (v : Value) : Makes m (skip p m v) [] fun _ y ts => y = .nothing ∧ ts = [] :=
  makes_lift fun _ => rfl

theorem makes_addStmt (s : Stmt) : Makes m (liftM (Drafting.addStmt m s)) [] fun _ y ts =>
    y = .stmt s ∧ ts = [] :=
  makes_lift fun d => congrArg (Code.addStmt · m s) (code_forM_mention s.mentions d)

/-- A statement is made if all its parts are there. -/
theorem makes_stmt? {x : Lower Unit} (s : Option Stmt)
    (hx : x = s.elim (pure ()) fun s => liftM (Drafting.addStmt m s)) :
    Makes m x [] fun _ y ts => y = .ofStmt? s ∧ ts = [] := by
  subst hx
  cases s with
  | none => exact makes_nothing
  | some s => exact makes_addStmt s

/-- A call is made when its arguments were read. -/
theorem makes_addCall (kind : CallKind) (i : Invocation Value) (receiver lhs : Option VarId) :
    Makes m (do
      let args ← i.args.mapM (operand p m b)
      liftM (Drafting.addCall m kind i.method receiver args lhs))
      (i.args.flatMap (b.findOperand p m)) fun c y ts => ∃ args,
        y = .call { kind, target := i.method, receiver, args } lhs ∧
        InTurn (OperandAt m b c) i.args args ts := by
  have hcall : ∀ args, Makes m (liftM (Drafting.addCall m kind i.method receiver args lhs)) []
      fun _ y ts => y = .call { kind, target := i.method, receiver, args } lhs ∧ ts = [] :=
    fun args => makes_lift fun _ => rfl
  rw [← List.append_nil (i.args.flatMap _)]
  refine (Finds.bind (reads_operands i.args)
    (fun h hsources => h.imp fun _ _ _ h => h.mono hsources) fun _ args _ _ => hcall args).conseq ?_
  rintro c _ _ ⟨args, ts, _, rfl, hargs, rfl, rfl⟩
  exact ⟨args, rfl, (List.append_nil ts).symm ▸ hargs⟩

theorem makes_call (i : Invocation Value) (lhs : Option VarId) :
    Makes m (call p m b i lhs) (b.findCall p m i) fun c y ts =>
      ∃ t, y = .call t lhs ∧ CallAt m b c i t ts := by
  unfold call Body.findCall
  cases hkind : CallKind.ofOpcode? i.opcode with
  | none => exact .throw
  | some kind =>
    have hmention : Reads m (liftM (Drafting.mention (.method i.method)) : Lower Unit) []
        fun _ _ ts => ts = [] := Finds.lift (fun _ => rfl) fun _ => rfl
    simp only [List.flatMap_append]
    cases hr : i.receiver with
    | none =>
      refine (Finds.bind hmention (fun h _ => h) fun _ _ _ _ =>
        makes_addCall kind i none lhs).conseq ?_
      rintro c _ _ ⟨_, _, ts, rfl, rfl, args, rfl, hargs⟩
      exact ⟨_, rfl, .mk hkind (hr ▸ .none) hargs⟩
    | some v =>
      rw [Option.toList_some, List.flatMap_singleton]
      refine (Finds.bind hmention (fun h _ => h) fun _ _ _ _ =>
        bind_operand fun receiver => makes_addCall kind i receiver lhs).conseq ?_
      rintro c _ _ ⟨_, _, _, rfl, rfl, receiver, ts, ts', rfl, hreceiver, args, rfl, hargs⟩
      rw [List.nil_append]
      exact ⟨_, rfl, .mk hkind (hr ▸ .some hreceiver) hargs⟩

theorem makes_assignLocal (l : LocalId) (rhs : Value) :
    Makes m (assignLocal p m b l rhs) (b.findIn p m (.assign (.local l) rhs)) fun c =>
      Yields m b c p (.assign (.local l) rhs) := by
  cases rhs with
  | new k =>
    refine (bind_localVar fun x => makes_stmt? (x.map (.alloc · (.cls k))) ?_).conseq ?_
    · cases x <;> rfl
    · rintro c _ _ ⟨x, hl, rfl, rfl⟩
      exact .alloc hl k
  | «local» r =>
    have hfind : b.findIn p m (.assign (.local l) (.local r)) =
        b.findLocal p m l ++ (b.findLocal p m r ++ []) := by simp [Body.findIn]
    rw [hfind]
    refine (bind_localVar fun x => bind_localVar fun y =>
      makes_stmt? (x.bind fun x => y.map (.assign x)) ?_).conseq ?_
    · cases x <;> cases y <;> rfl
    · rintro c _ _ ⟨x, hl, y, hr, rfl, rfl⟩
      exact .copy hl hr
  | field r f =>
    have hfind : b.findIn p m (.assign (.local l) (.field r f)) =
        b.findLocal p m l ++ (b.findBase p m r ++ []) := by simp [Body.findIn]
    rw [hfind]
    refine (bind_localVar fun x => bind_base fun y =>
      makes_stmt? (x.map (.load · y f)) ?_).conseq ?_
    · cases x <;> rfl
    · rintro c _ _ ⟨x, hl, y, hr, rfl, rfl⟩
      exact .load hl hr f
  | invoke i =>
    refine (bind_localVar fun x => makes_call i x).conseq ?_
    rintro c _ ts ⟨x, hl, t, rfl, hi⟩
    exact .call hl hi
  | _ =>
    refine (bind_localVar fun _ => makes_skip _).conseq ?_
    rintro c _ _ ⟨x, hl, rfl, rfl⟩
    exact .unfollowed hl rfl

theorem makes_assignField (l : LocalId) (f : FieldId) (rhs : Value) :
    Makes m (assignField p m b l f rhs) (b.findIn p m (.assign (.field l f) rhs)) fun c =>
      Yields m b c p (.assign (.field l f) rhs) := by
  have hfind : b.findIn p m (.assign (.field l f) rhs) =
      b.findBase p m l ++ (b.findOperand p m rhs ++ []) := by simp [Body.findIn]
  rw [hfind]
  refine (bind_base fun x => bind_operand fun y => makes_stmt? (y.map (.store x f)) ?_).conseq ?_
  · cases y <;> rfl
  · rintro c _ _ ⟨x, hl, y, ts, _, rfl, hv, rfl, rfl⟩
    rw [List.append_nil]
    exact .store hl f hv

theorem makes_leave (v : Value) :
    Makes m (leave p m b v) (b.findIn p m (.leave (some v))) fun c =>
      Yields m b c p (.leave (some v)) := by
  unfold leave Body.findIn
  cases href : (p.method m).returnsReference with
  | false =>
    refine Finds.conseq makes_nothing ?_
    rintro c _ _ ⟨rfl, rfl⟩
    exact .ignored href v
  | true =>
    simp only [if_true]
    rw [← List.append_nil (b.findOperand p m v)]
    refine (bind_operand (S := fun x _ y ts => y = .ofResult? x ∧ ts = []) fun x => ?_).conseq ?_
    · cases x with
      | none => exact makes_nothing
      | some v => exact makes_lift fun _ => rfl
    · rintro c _ _ ⟨x, ts, _, rfl, hv, rfl, rfl⟩
      rw [List.append_nil]
      exact .result href hv

theorem makes_instruction (i : Instruction) :
    Makes m (instruction p m b i) (b.findIn p m i) fun c => Yields m b c p i := by
  cases i with
  | assign lhs rhs =>
    cases lhs with
    | «local» l => exact makes_assignLocal l rhs
    | field l f => exact makes_assignField l f rhs
    | staticField | element =>
      refine Finds.conseq (makes_skip _) ?_
      rintro c _ _ ⟨rfl, rfl⟩
      exact .passedOver rfl rhs
    | _ => exact .throw
  | invoke i =>
    refine (makes_call i none).conseq ?_
    rintro c _ ts ⟨t, rfl, hi⟩
    exact .invoke hi
  | leave v =>
    cases v with
    | none =>
      refine Finds.conseq makes_nothing ?_
      rintro c _ _ ⟨rfl, rfl⟩
      exact .silent rfl
    | some v => exact makes_leave v
  | _ =>
    refine Finds.conseq makes_nothing ?_
    rintro c _ _ ⟨rfl, rfl⟩
    exact .silent rfl

end Lower

/-! ### Bodies -/

namespace Body

variable (p : Program) (m : MethodId) (b : Body)

/-- The instructions that are lowered: all those before the first one with a fault. -/
def accepted : List Instruction :=
  b.instructions.takeWhile fun i => (b.findIn p m i).fault?.isNone

/-- What lowering makes of the code `c`, when `fs` is what it comes across before the instructions:
the code `c'` and an outcome. -/
structure Proceeds (fs : Findings) (c : Code) (outcome : Except Error Unit) (c' : Code)
    (ys : List Yield) (ts : List VarId) : Prop where
  /-- It fails with the first fault that there is. -/
  outcome_eq : outcome = (Findings.fault? (fs ++ b.findRest p m)).elim (.ok ()) .error
  /-- There is one slot for each parameter. -/
  params : fs.fault? = none → List.Forall₂ (LocalAt m b c') b.paramLocals c'.params
  params_nil : fs.fault?.isSome → c'.params = []
  /-- Each instruction that is lowered yields what its shape says. -/
  yields : InTurn (Yields m b c' p) (if fs.fault?.isSome then [] else b.accepted p m) ys ts
  /-- Temporaries are new, and each null operand has its own. -/
  temporaries : c.temporaries m ++ ts <+: c'.temporaries m
  /-- This is all that is made. -/
  made : Code.Made m ys (Findings.reads (fs ++ b.findRest p m))
    { c with this := c'.this, params := c'.params } c'

/-- What lowering the body makes of the code `c` of the method: the code `c'` and an outcome. -/
structure Lowered (c : Code) (outcome : Except Error Unit) (c' : Code) (ys : List Yield)
    (ts : List VarId) : Prop
    extends Proceeds p m b (b.findThis p m ++ b.findParams p m) { c with built := true } outcome c'
      ys ts where
  /-- The receiver has its variable, if it is there and declared. -/
  this : ∀ l, b.thisLocal = some l → (b.findThis p m).fault? = none → LocalAt m b c' l c'.this
  this_none : b.thisLocal = none ∨ (b.findThis p m).fault?.isSome → c'.this = none
  /-- Returned variables are listed once. -/
  returns_eq : c'.returns = (ys.filterMap Yield.result?).eraseDups

end Body

namespace Lower

variable {m : MethodId} {p : Program} {b : Body}

/-- Instructions are lowered one after the other, up to the first fault. -/
theorem exists_instructions (is : List Instruction) (d : Draft) : ∃ ys ts,
    ((is.forM (instruction p m b)).run d).1 =
      (Findings.fault? (is.flatMap (b.findIn p m))).elim (.ok ()) .error ∧
    Code.Made m ys (Findings.reads (is.flatMap (b.findIn p m))) d.code
      ((is.forM (instruction p m b)).run d).2.code ∧
    InTurn (Yields m b ((is.forM (instruction p m b)).run d).2.code p)
      (is.takeWhile fun i => (b.findIn p m i).fault?.isNone) ys ts ∧
    d.code.temporaries m ++ ts <+: ((is.forM (instruction p m b)).run d).2.code.temporaries m := by
  induction is generalizing d with
  | nil =>
    refine ⟨[], [], rfl, Code.made_reads [] d.code, .nil, ?_⟩
    rw [List.append_nil]
    exact List.prefix_refl _
  | cons i is ih =>
    have hi := makes_instruction (m := m) (p := p) (b := b) i
    have hrun : (i :: is).forM (instruction p m b) =
        instruction p m b i >>= fun _ => is.forM (instruction p m b) := rfl
    have hreads := Code.made_reads (m := m) (b.findIn p m i).reads d.code
    rw [hrun, List.flatMap_cons]
    cases hfault : (b.findIn p m i).fault? with
    | some err =>
      -- nothing is made of this instruction and of those after it
      obtain ⟨herr, hcode⟩ := hi.fault err hfault d
      rw [run_bind_error herr, Findings.fault?_append_of_some hfault,
        Findings.reads_append_of_some hfault, List.takeWhile_cons, hfault, hcode]
      refine ⟨[], [], rfl, hreads, .nil, ?_⟩
      rw [List.append_nil]
      exact Code.temporaries_of_isPrefix hreads.sources_isPrefix
    | none =>
      obtain ⟨y, ts, hok, hcode, hts, hy⟩ := hi.result hfault d
      obtain ⟨ys, ts', houtcome, hmade, hys, hts'⟩ := ih ((instruction p m b i).run d).2
      rw [run_bind_ok hok, Findings.fault?_append hfault, Findings.reads_append hfault,
        List.takeWhile_cons, hfault]
      have happly := Code.made_apply (m := m) ((b.findIn p m i).reads.foldl Code.read d.code)
        hy.proper
      rw [show Yield.apply m _ y = _ from hcode.symm] at happly
      have hsources := (happly.trans hmade).sources_isPrefix
      have hall := hreads.trans (happly.trans hmade)
      refine ⟨y :: ys, ts ++ ts', houtcome, hall, .cons (hy.mono hsources) hys, ?_⟩
      have hsame : ((instruction p m b i).run d).2.code.temporaries m =
          ((b.findIn p m i).reads.foldl Code.read d.code).temporaries m := happly.temporaries_eq
      rw [← List.append_assoc, ← hts, ← hsame]
      exact hts'

/-- A fault before the instructions leaves it at what was read. -/
theorem proceeds_of_fault {fs : Findings} {err : Error} (hfault : fs.fault? = some err)
    {c : Code} (hparams : c.params = []) :
    b.Proceeds p m fs c (.error err) (fs.reads.foldl Code.read c) [] [] := by
  have hreads := Code.made_reads (m := m) fs.reads c
  refine ⟨?_, ?_, ?_, ?_, ?_, ?_⟩
  · rw [Findings.fault?_append_of_some hfault]
    rfl
  · intro hnone
    cases hnone.symm.trans hfault
  · intro _
    rw [hreads.params_eq, hparams]
  · rw [hfault]
    exact .nil
  · rw [List.append_nil]
    exact Code.temporaries_of_isPrefix hreads.sources_isPrefix
  · rw [Findings.reads_append_of_some hfault, hreads.this_eq, hreads.params_eq]
    exact hreads

/-- What is read before can be put in front. -/
theorem proceeds_append {fs gs : Findings} (hfault : fs.fault? = none) {c c' : Code}
    {this : Option VarId} {outcome : Except Error Unit} {ys : List Yield} {ts : List VarId}
    (hts : (fs.reads.foldl Code.read c).temporaries m = c.temporaries m)
    (h : b.Proceeds p m gs { fs.reads.foldl Code.read c with this } outcome c' ys ts) :
    b.Proceeds p m (fs ++ gs) c outcome c' ys ts where
  outcome_eq := by
    rw [List.append_assoc, Findings.fault?_append hfault]
    exact h.outcome_eq
  params := by
    rw [Findings.fault?_append hfault]
    exact h.params
  params_nil := by
    rw [Findings.fault?_append hfault]
    exact h.params_nil
  yields := by
    rw [Findings.fault?_append hfault]
    exact h.yields
  temporaries := hts ▸ h.temporaries
  made := by
    rw [List.append_assoc, Findings.reads_append hfault]
    exact ((Code.made_reads fs.reads c).face c'.this c'.params).trans h.made

/-- Lowering of a body, after the receiver. -/
def afterThis (p : Program) (m : MethodId) (b : Body) : Lower Unit := do
  let params ← b.paramLocals.mapM (localVar p m b)
  Drafting.edit fun c => { c with params }
  b.instructions.forM (instruction p m b)

/-- The parameters come before the instructions. -/
theorem exists_proceeds (d : Draft) (hparams : d.code.params = []) {r : Except Error Unit × Draft}
    (hr : (afterThis p m b).run d = r) :
    r.2.code.this = d.code.this ∧
      ∃ ys ts, b.Proceeds p m (b.findParams p m) d.code r.1 r.2.code ys ts := by
  have hx := reads_locals (m := m) (p := p) (b := b) b.paramLocals
  have hreads := Code.made_reads (m := m) (b.findParams p m).reads d.code
  cases hfault : (b.findParams p m).fault? with
  | some err =>
    obtain ⟨herr, hcode⟩ := hx.fault err hfault d
    rw [afterThis, run_bind_error herr] at hr
    subst hr
    rw [hcode]
    exact ⟨hreads.this_eq, [], [], proceeds_of_fault hfault hparams⟩
  | none =>
    obtain ⟨params, _, hok, hcode, hts, hlocals, rfl⟩ := hx.result hfault d
    rw [afterThis, run_bind_ok hok] at hr
    obtain ⟨d₁, hd₁, hrest⟩ : ∃ d₁ : Draft,
        d₁.code = { (b.findParams p m).reads.foldl Code.read d.code with params } ∧
        (b.instructions.forM (instruction p m b)).run d₁ = r :=
      ⟨_, congrArg (fun c : Code => { c with params }) hcode, hr⟩
    obtain ⟨ys, ts, houtcome, hmade, hys, htemps⟩ :=
      exists_instructions (m := m) (p := p) (b := b) b.instructions d₁
    rw [hrest] at houtcome hmade hys htemps
    rw [hd₁] at hmade htemps
    refine ⟨hmade.this_eq.trans hreads.this_eq, ys, ts, ?_, ?_, ?_, ?_, ?_, ?_⟩
    · rw [Findings.fault?_append hfault]
      exact houtcome
    · intro _
      rw [hmade.params_eq]
      exact hlocals.imp fun _ _ h => h.mono hmade.sources_isPrefix
    · rw [hfault]
      rintro ⟨⟩
    · rw [hfault]
      exact hys
    · rw [List.append_nil] at hts
      exact hts ▸ htemps
    · rw [Findings.reads_append hfault, hmade.this_eq, hmade.params_eq]
      exact (hreads.face _ params).trans hmade

/-- Listing each variable once keeps the first of equal ones. -/
theorem foldl_list_eq_eraseDups (vs : List VarId) :
    vs.foldl (fun vs v => if v ∈ vs then vs else vs ++ [v]) [] = vs.eraseDups := by
  induction vs using List.reverseRecOn with
  | nil => rfl
  | append_singleton vs v ih =>
    rw [List.foldl_concat, ih, List.eraseDups_append]
    simp only [List.mem_eraseDups]
    split <;> rename_i hv
    · simp [List.removeAll, hv]
    · have hkeep : [v].removeAll vs = [v] := by simp [List.removeAll, hv]
      rw [hkeep]
      rfl

/-- Lowering a body reads what is in it and makes what its instructions yield, up to the first
fault. -/
theorem exists_lowered {c : Code} (hthis : c.this = none) (hparams : c.params = [])
    (hreturns : c.returns = []) {d : Draft} (hd : d.code = { c with built := true })
    {r : Except Error Unit × Draft} (hr : (body p m b).run d = r) :
    ∃ ys ts, b.Lowered p m c r.1 r.2.code ys ts := by
  -- the returned variables are known from what is made
  suffices h : ∃ ys ts,
      b.Proceeds p m (b.findThis p m ++ b.findParams p m) d.code r.1 r.2.code ys ts ∧
      (∀ l, b.thisLocal = some l → (b.findThis p m).fault? = none →
        LocalAt m b r.2.code l r.2.code.this) ∧
      (b.thisLocal = none ∨ (b.findThis p m).fault?.isSome → r.2.code.this = none) by
    obtain ⟨ys, ts, hproceeds, hsome, hnone⟩ := h
    have hlist := hproceeds.made.returns_eq
    rw [hd] at hproceeds hlist
    simp only [hreturns, foldl_list_eq_eraseDups] at hlist
    exact ⟨ys, ts, { hproceeds with this := hsome, this_none := hnone, returns_eq := hlist }⟩
  have hempty : d.code.this = none ∧ d.code.params = [] := by
    rw [hd]
    exact ⟨hthis, hparams⟩
  have hreads := Code.made_reads (m := m) (b.findThis p m).reads d.code
  unfold body at hr
  cases hl : b.thisLocal with
  | none =>
    rw [hl] at hr
    obtain ⟨hsame, ys, ts, hproceeds⟩ := exists_proceeds d hempty.2 hr
    have hfind : b.findThis p m = [] := by rw [Body.findThis, hl]; rfl
    rw [hfind]
    exact ⟨ys, ts, hproceeds, by rintro l ⟨⟩, fun _ => hsame.trans hempty.1⟩
  | some l =>
    rw [hl] at hr
    have hfind : b.findThis p m = b.findLocal p m l := by
      rw [Body.findThis, hl, Option.toList_some, List.flatMap_singleton]
    have hx := reads_localVar (m := m) (p := p) (b := b) l
    rw [← hfind] at hx
    cases hfault : (b.findThis p m).fault? with
    | some err =>
      obtain ⟨herr, hcode⟩ := hx.fault err hfault d
      rw [run_bind_error herr] at hr
      subst hr
      have hboth : Findings.fault? (b.findThis p m ++ b.findParams p m) = some err :=
        Findings.fault?_append_of_some hfault
      have hproceeds := proceeds_of_fault (m := m) (p := p) (b := b) hboth hempty.2
      rw [Findings.reads_append_of_some hfault, ← hcode] at hproceeds
      refine ⟨[], [], hproceeds, ?_, fun _ => ?_⟩
      · rintro _ _ ⟨⟩
      · rw [hcode, hreads.this_eq]
        exact hempty.1
    | none =>
      obtain ⟨this, _, hok, hcode, hts, hlocal, rfl⟩ := hx.result hfault d
      rw [run_bind_ok hok] at hr
      obtain ⟨d₁, hd₁, hrest⟩ : ∃ d₁ : Draft,
          d₁.code = { (b.findThis p m).reads.foldl Code.read d.code with this } ∧
          (afterThis p m b).run d₁ = r :=
        ⟨_, congrArg (fun c : Code => { c with this }) hcode, hr⟩
      have hnil : d₁.code.params = [] := by
        rw [hd₁]
        exact hreads.params_eq.trans hempty.2
      obtain ⟨hsame, ys, ts, hproceeds⟩ := exists_proceeds d₁ hnil hrest
      rw [hd₁] at hsame hproceeds
      rw [List.append_nil] at hts
      refine ⟨ys, ts, proceeds_append hfault hts hproceeds, ?_, ?_⟩
      · rintro _ ⟨⟩ _
        rw [hsame]
        exact hlocal.mono hproceeds.made.sources_isPrefix
      · rintro (⟨⟨⟩⟩ | ⟨⟨⟩⟩)

end Lower

namespace Elements

variable {p : Program} {e : Elements} {m : MethodId} {b : Body}

/-- Lowering a method that has a body, for the first time and whatever was asked of the tables
before, lowers the body up to the first fault. What was made up to there stays: lowering again
succeeds and changes nothing. -/
theorem Develops.lowers_body (h : ({ program := p } : Elements).Develops e)
    (hb : p.body? m = some b) (hm : e.isBuilt m = false) :
    (e.lower m).1 = (b.findings p m).fault?.elim (.ok ()) .error ∧
      (∃ ys ts, b.Lowered p m (e.code m) (e.lower m).1 ((e.lower m).2.code m) ys ts) ∧
      (e.lower m).2.lower m = (.ok (), (e.lower m).2) := by
  have hface := h.face_eq hm
  simp only [Code.face, Prod.mk.injEq] at hface
  obtain ⟨-, hthis, hparams, hreturns⟩ := hface
  have hnot : ¬ e.isBuilt m = true := by rw [hm]; exact Bool.false_ne_true
  have hmethod : Lower.method e.program m = Lower.body p m b := by
    rw [h.grows.program_eq, Lower.method, hb]
  have hlowered : ∃ ys ts,
      b.Lowered p m (e.code m) (e.lower m).1 ((e.lower m).2.code m) ys ts := by
    rw [outcome_lower_of_not_built hnot, code_lower_of_not_built hnot, if_pos rfl, hmethod]
    exact Lower.exists_lowered hthis hparams hreturns rfl rfl
  refine ⟨?_, hlowered, ?_⟩
  · obtain ⟨ys, ts, hbody⟩ := hlowered
    exact hbody.outcome_eq
  · refine Prod.ext ?_ (lower_again .refl)
    have hbuilt := e.isBuilt_lower_self m
    generalize (e.lower m).2 = e' at hbuilt
    simp only [lower, isBuilt_addMethod, hbuilt, if_true]

end Elements

/-- A method with an instruction that cannot be lowered, after others that can, and a native one. -/
def Program.stumbling : Program where
  classes := [{ name := "java.lang.Object" }, { name := "A", superclass := some ⟨0⟩ }]
  fields := [{ owner := ⟨1⟩, name := "f", ty := .cls ⟨1⟩ }]
  methods := [{
    owner := ⟨1⟩, name := "m", params := [.cls ⟨1⟩], result := some (.cls ⟨1⟩)
    body := some {
      thisLocal := some ⟨0⟩
      paramLocals := [⟨1⟩]
      locals := [⟨"this", .cls ⟨1⟩⟩, ⟨"a", .cls ⟨1⟩⟩, ⟨"n", .int⟩, ⟨"x", .cls ⟨1⟩⟩]
      instructions := [
        .assign (.local ⟨3⟩) (.new ⟨1⟩), .assign (.field ⟨0⟩ ⟨0⟩) .null,
        .assign (.local ⟨3⟩) (.field ⟨1⟩ ⟨0⟩), .assign (.local ⟨2⟩) (.int 5),
        .assign (.local ⟨3⟩) (.invoke ⟨0xb6, ⟨0⟩, some (.local ⟨1⟩), [.null, .local ⟨2⟩]⟩),
        .leave (some (.local ⟨3⟩)), .leave (some (.local ⟨3⟩)),
        .assign (.field ⟨3⟩ ⟨0⟩) (.cast (.cls ⟨1⟩) .null), .assign (.local ⟨3⟩) (.new ⟨1⟩)] } },
    { owner := ⟨1⟩, name := "n", params := [.cls ⟨1⟩, .int], result := some (.cls ⟨1⟩)
      isNative := true }]

/-- The code has a temporary and the variable of the parameter before the method is lowered. -/
theorem Elements.Develops.lowers_body_stumbling :
    let e := ((({ program := .stumbling } : Elements).serve (.temp ⟨0⟩ "t$" (.cls ⟨1⟩))).2.serve
      (.localVar ⟨0⟩ ⟨1⟩ ⟨"a", .cls ⟨1⟩⟩)).2
    ({ program := .stumbling } : Elements).Develops e ∧ e.isBuilt ⟨0⟩ = false ∧
      (∃ b, Program.stumbling.body? ⟨0⟩ = some b ∧
        (e.lower ⟨0⟩).1 = (b.findings .stumbling ⟨0⟩).fault?.elim (.ok ()) .error ∧
        (∃ ys ts, b.Lowered .stumbling ⟨0⟩ (e.code ⟨0⟩) (e.lower ⟨0⟩).1 ((e.lower ⟨0⟩).2.code ⟨0⟩)
          ys ts) ∧
        (e.lower ⟨0⟩).2.lower ⟨0⟩ = (.ok (), (e.lower ⟨0⟩).2)) ∧
      (e.lower ⟨0⟩).1 = .error (.lowering "(cast) null" "<A: A m(A)>") ∧
      ((e.lower ⟨0⟩).2.code ⟨0⟩).stmts.map PlacedStmt.stmt =
        [.alloc ⟨⟨0⟩, 3⟩ (.cls ⟨1⟩), .store ⟨⟨0⟩, 2⟩ ⟨0⟩ ⟨⟨0⟩, 4⟩, .load ⟨⟨0⟩, 3⟩ ⟨⟨0⟩, 1⟩ ⟨0⟩,
          .call ⟨⟨0⟩, 0⟩ (some ⟨⟨0⟩, 3⟩)] ∧
      ((e.lower ⟨0⟩).2.code ⟨0⟩).returns = [⟨⟨0⟩, 3⟩] := by
  intro e
  have h : ({ program := .stumbling } : Elements).Develops e := .serve (.serve .refl _) _
  have hm : e.isBuilt ⟨0⟩ = false := by decide +kernel
  exact ⟨h, hm, ⟨_, rfl, Develops.lowers_body h rfl hm⟩, by decide +kernel, by decide +kernel,
    by decide +kernel⟩

end PointsTo
