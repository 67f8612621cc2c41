import PointsTo.Proofs.Elements.Interning

/-!
# What lowering reads

Lowering looks for variables in a fixed order: those of the receiver and of the parameters, then
those of the instructions one after the other. What it finds there depends on the body alone, and
the first fault stops it.

* `Body.findings`: all that lowering comes across, in order;
* `Findings.fault?`: the first fault, and `Findings.reads`: what is read before it;
* `Code.read`: reading a local makes its variable if there is none, reading the null literal makes a
  temporary;
* `Lower.Finds`: a step of lowering reads what the findings say before it does anything else, and
  `Lower.Reads`: it only reads (`Lower.reads_localVar`, `Lower.reads_base`, `Lower.reads_operand`).
-/

namespace PointsTo

/-- Something that has a variable. -/
inductive Read where
  /-- A local that holds references. -/
  | local (l : LocalId) (decl : LocalDecl) (href : decl.ty.isReference = true)
  /-- The null literal. -/
  | null

/-- What lowering comes across: things to read, and faults. -/
abbrev Findings := List (Except Error Read)

namespace Findings

/-- The first fault. -/
def fault? : Findings → Option Error
  | [] => none
  | .ok _ :: fs => fault? fs
  | .error err :: _ => some err

/-- What is read before the first fault. -/
def reads : Findings → List Read
  | .ok r :: fs => r :: reads fs
  | _ => []

variable {fs gs : Findings}

theorem fault?_append (h : fs.fault? = none) : fault? (fs ++ gs) = gs.fault? := by
  induction fs with
  | nil => rfl
  | cons f fs ih =>
    cases f with
    | ok r => exact ih h
    | error err => cases h

theorem fault?_append_of_some {err : Error} (h : fs.fault? = some err) :
    fault? (fs ++ gs) = some err := by
  induction fs with
  | nil => cases h
  | cons f fs ih =>
    cases f with
    | ok r => exact ih h
    | error err => exact h

theorem reads_append (h : fs.fault? = none) : reads (fs ++ gs) = fs.reads ++ gs.reads := by
  induction fs with
  | nil => rfl
  | cons f fs ih =>
    cases f with
    | ok r => exact congrArg (r :: ·) (ih h)
    | error err => cases h

theorem reads_append_of_some {err : Error} (h : fs.fault? = some err) :
    reads (fs ++ gs) = fs.reads := by
  induction fs with
  | nil => cases h
  | cons f fs ih =>
    cases f with
    | ok r => exact congrArg (r :: ·) (ih h)
    | error err => rfl

end Findings

/-! ### What a body holds -/

/-- The fault of a value in a place where it cannot be handled. -/
def Value.fault (v : Value) (p : Program) (m : MethodId) : Except Error Read :=
  .error (.lowering v.describe (p.signature m))

namespace Body

variable (p : Program) (m : MethodId) (b : Body)

/-- A local must be declared. It is read if it holds references. -/
def findLocal (l : LocalId) : Findings :=
  match b.locals[l.num]? with
  | some decl => if href : decl.ty.isReference then [.ok (.local l decl href)] else []
  | none => [(Value.local l).fault p m]

/-- A local whose objects are looked into must hold references. -/
def findBase (l : LocalId) : Findings :=
  match b.locals[l.num]? with
  | some decl =>
    if href : decl.ty.isReference then [.ok (.local l decl href)] else [(Value.local l).fault p m]
  | none => [(Value.local l).fault p m]

/-- An operand is a local, the null literal or a constant. -/
def findOperand (v : Value) : Findings :=
  match v with
  | .local l => b.findLocal p m l
  | .null => [.ok .null]
  | .int _ | .long _ | .double _ | .string _ | .classConst _ => []
  | _ => [v.fault p m]

/-- The opcode of an invocation must be known. The receiver comes before the arguments. -/
def findCall (i : Invocation Value) : Findings :=
  match CallKind.ofOpcode? i.opcode with
  | some _ => (i.receiver.toList ++ i.args).flatMap (b.findOperand p m)
  | none => [.error (.classification i.describe i.opcode (p.signature m))]

/-- What there is in an instruction. The target of an assignment comes before its source. -/
def findIn : Instruction → Findings
  | .assign (.local l) rhs => b.findLocal p m l ++
    match rhs with
    | .local r => b.findLocal p m r
    | .field r _ => b.findBase p m r
    | .invoke i => b.findCall p m i
    | _ => []
  | .assign (.field l _) rhs => b.findBase p m l ++ b.findOperand p m rhs
  | .assign (.staticField _) _ | .assign (.element _ _) _ => []
  | .assign lhs _ => [lhs.fault p m]
  | .invoke i => b.findCall p m i
  | .leave (some v) => if (p.method m).returnsReference then b.findOperand p m v else []
  | .leave none | .identity _ | .throw _ | .goto _ | .branch _ _ | .nop => []

/-- The local of the receiver. -/
def findThis : Findings := b.thisLocal.toList.flatMap (b.findLocal p m)

/-- The locals of the parameters. -/
def findParams : Findings := b.paramLocals.flatMap (b.findLocal p m)

/-- What there is in the instructions. -/
def findRest : Findings := b.instructions.flatMap (b.findIn p m)

/-- All that there is in the body. -/
def findings : Findings := b.findThis p m ++ b.findParams p m ++ b.findRest p m

end Body

/-! ### Reading -/

namespace Code

/-- The code with a variable for what is read: a local has one variable, the null literal gets a
new temporary each time. -/
def read (c : Code) : Read → Code
  | .local l decl _ =>
    match c.localSlot? l with
    | some _ => c
    | none => c.pushVar { name := decl.name, ty := decl.ty, source := some l }
  | .null =>
    { c with temps := c.temps + 1 }.pushVar
      { name := "null$" ++ Text.decimal (c.temps + 1), ty := .null }

/-- The temporaries of `m`, and what else stands for no local, in order. -/
def temporaries (m : MethodId) (c : Code) : List VarId :=
  c.sources.zipIdx.filterMap fun (source, slot) =>
    if source.isNone then some ⟨m, slot⟩ else none

variable {m : MethodId} {c c₁ : Code}

theorem sources_pushVar (c : Code) (x : Var) : (c.pushVar x).sources = c.sources ++ [x.source] := by
  simp [sources, pushVar]

theorem temporaries_pushVar (c : Code) (x : Var) : (c.pushVar x).temporaries m =
    c.temporaries m ++ if x.source.isNone then [⟨m, c.vars.length⟩] else [] := by
  simp only [temporaries, sources_pushVar, List.zipIdx_append, List.filterMap_append]
  cases x.source <;> simp

theorem sources_read (c : Code) (r : Read) : c.sources <+: (c.read r).sources := by
  cases r with
  | «local» l decl href =>
    rw [read]
    split
    · exact List.prefix_refl _
    · rw [sources_pushVar]
      exact List.prefix_append _ _
  | null =>
    rw [read, sources_pushVar]
    exact List.prefix_append _ _

theorem sources_foldl_read (rs : List Read) (c : Code) :
    c.sources <+: (rs.foldl read c).sources := by
  induction rs generalizing c with
  | nil => exact List.prefix_refl _
  | cons r rs ih => exact (c.sources_read r).trans (ih _)

/-- What stands for no local keeps its place. -/
theorem temporaries_of_isPrefix (h : c.sources <+: c₁.sources) :
    c.temporaries m <+: c₁.temporaries m := by
  obtain ⟨more, hmore⟩ := h
  rw [temporaries, temporaries, ← hmore, List.zipIdx_append, List.filterMap_append]
  exact List.prefix_append _ _

end Code

/-- The members of a list are met with results in turn, and take the temporaries one after the
other. -/
inductive InTurn {α β : Type} (R : β → α → List VarId → Prop) :
    List β → List α → List VarId → Prop
  | nil : InTurn R [] [] []
  | cons {b : β} {bs : List β} {a : α} {as : List α} {ts ts' : List VarId} (head : R b a ts)
      (tail : InTurn R bs as ts') : InTurn R (b :: bs) (a :: as) (ts ++ ts')

theorem InTurn.imp {α β : Type} {R R' : β → α → List VarId → Prop}
    (himp : ∀ b a ts, R b a ts → R' b a ts) {bs : List β} {as : List α} {ts : List VarId}
    (h : InTurn R bs as ts) : InTurn R' bs as ts := by
  induction h with
  | nil => exact .nil
  | cons head _ ih => exact .cons (himp _ _ _ head) ih

theorem InTurn.exists_of_mem {α β : Type} {R : β → α → List VarId → Prop} {bs : List β}
    {as : List α} {ts : List VarId} (h : InTurn R bs as ts) {a : α} (ha : a ∈ as) :
    ∃ b ts', R b a ts' := by
  induction h with
  | nil => cases ha
  | cons head _ ih =>
    rcases List.mem_cons.1 ha with rfl | ha
    · exact ⟨_, _, head⟩
    · exact ih ha

/-- The variable of a local in the code: none if the local holds no references. -/
inductive LocalAt (m : MethodId) (b : Body) (c : Code) (l : LocalId) : Option VarId → Prop
  | reference {decl : LocalDecl} {slot : Nat} (hdecl : b.locals[l.num]? = some decl)
      (href : decl.ty.isReference = true) (hslot : c.localSlot? l = some slot) :
      LocalAt m b c l (some ⟨m, slot⟩)
  | other {decl : LocalDecl} (hdecl : b.locals[l.num]? = some decl)
      (href : decl.ty.isReference = false) : LocalAt m b c l none

/-- Numbers, strings and class literals have no variable. -/
def Value.isConstant : Value → Bool
  | .int _ | .long _ | .double _ | .string _ | .classConst _ => true
  | _ => false

/-- The variable of an operand in the code, and the temporary that it takes. -/
inductive OperandAt (m : MethodId) (b : Body) (c : Code) :
    Value → Option VarId → List VarId → Prop
  | local {l : LocalId} {v : Option VarId} (h : LocalAt m b c l v) : OperandAt m b c (.local l) v []
  | null (t : VarId) : OperandAt m b c .null (some t) [t]
  | constant {v : Value} (h : v.isConstant = true) : OperandAt m b c v none []

section

variable {m : MethodId} {b : Body} {c c₁ : Code}

theorem LocalAt.mono {l : LocalId} {v : Option VarId} (h : LocalAt m b c l v)
    (hsources : c.sources <+: c₁.sources) : LocalAt m b c₁ l v := by
  cases h with
  | reference hdecl href hslot =>
    exact .reference hdecl href (Code.localSlot?_of_isPrefix hsources hslot)
  | other hdecl href => exact .other hdecl href

theorem OperandAt.mono {v : Value} {w : Option VarId} {ts : List VarId}
    (h : OperandAt m b c v w ts) (hsources : c.sources <+: c₁.sources) :
    OperandAt m b c₁ v w ts := by
  cases h with
  | «local» h => exact .local (h.mono hsources)
  | null t => exact .null t
  | constant h => exact .constant h

end

namespace Lower

/-- The step reads what the findings say, and comes to an end. It fails with the first fault and
leaves it at what was read. If there is none, it succeeds: its result and the code it leaves are
`last r c`, where `c` is the code with all that was read, and `Q` holds of `r` and the temporaries
that were made. -/
structure Finds {α ρ : Type} (m : MethodId) (last : ρ → Code → α × Code) (x : Lower α)
    (fs : Findings) (Q : Code → ρ → List VarId → Prop) : Prop where
  fault : ∀ err, fs.fault? = some err → ∀ d : Draft,
    (x.run d).1 = .error err ∧ (x.run d).2.code = fs.reads.foldl Code.read d.code
  result : fs.fault? = none → ∀ d : Draft, ∃ r ts,
    (x.run d).1 = .ok (last r (fs.reads.foldl Code.read d.code)).1 ∧
    (x.run d).2.code = (last r (fs.reads.foldl Code.read d.code)).2 ∧
    (fs.reads.foldl Code.read d.code).temporaries m = d.code.temporaries m ++ ts ∧
    Q (fs.reads.foldl Code.read d.code) r ts

/-- A step that reads, and changes nothing else. -/
abbrev Reads {α : Type} (m : MethodId) (x : Lower α) (fs : Findings)
    (Q : Code → α → List VarId → Prop) : Prop :=
  Finds m Prod.mk x fs Q

variable {α β ρ : Type} {m : MethodId} {p : Program} {b : Body}

theorem run_bind_ok {x : Lower α} {f : α → Lower β} {d : Draft} {a : α}
    (h : (x.run d).1 = .ok a) : (x >>= f).run d = (f a).run (x.run d).2 := by
  rw [run_bind]
  rcases hr : x.run d with ⟨r, d'⟩
  obtain rfl : r = .ok a := by rw [← h, hr]
  rfl

theorem run_bind_error {x : Lower α} {f : α → Lower β} {d : Draft} {err : Error}
    (h : (x.run d).1 = .error err) : (x >>= f).run d = (.error err, (x.run d).2) := by
  rw [run_bind]
  rcases hr : x.run d with ⟨r, d'⟩
  obtain rfl : r = .error err := by rw [← h, hr]
  rfl

namespace Finds

variable {last : ρ → Code → α × Code} {x : Lower α} {fs gs : Findings}
  {Q Q' : Code → ρ → List VarId → Prop}

theorem conseq (h : Finds m last x fs Q) (hQ : ∀ c r ts, Q c r ts → Q' c r ts) :
    Finds m last x fs Q' where
  fault := h.fault
  result hnone d := by
    obtain ⟨r, ts, hok, hcode, hts, hr⟩ := h.result hnone d
    exact ⟨r, ts, hok, hcode, hts, hQ _ r ts hr⟩

/-- A step without reading. -/
theorem lift {r : ρ} {z : Drafting α} (hz : ∀ d, ((z d).1, (z d).2.code) = last r d.code)
    (h : ∀ c, Q c r []) : Finds m last (liftM z) [] Q where
  fault _ := by rintro ⟨⟩
  result _ d := ⟨r, [], congrArg (fun l : α × Code => Except.ok l.1) (hz d),
    congrArg Prod.snd (hz d), (List.append_nil _).symm, h d.code⟩

theorem throw {err : Error} : Finds m last (throw err) [.error err] Q where
  fault _ := by
    rintro ⟨⟩ _
    exact ⟨rfl, rfl⟩
  result := by rintro ⟨⟩

/-- A step after one that reads. What is known of the result of the first one stays true while more
is read. -/
theorem bind {y : Lower β} {f : β → Lower α} {R : Code → β → List VarId → Prop}
    {S : β → Code → ρ → List VarId → Prop} (hy : Reads m y fs R)
    (hR : ∀ {c c₁ : Code} {a ts}, R c a ts → c.sources <+: c₁.sources → R c₁ a ts)
    (hf : ∀ c a ts, R c a ts → Finds m last (f a) gs (S a)) : Finds m last (y >>= f) (fs ++ gs)
      fun c r ts => ∃ a ts₁ ts₂, ts = ts₁ ++ ts₂ ∧ R c a ts₁ ∧ S a c r ts₂ where
  fault err herr d := by
    cases hfault : fs.fault? with
    | some err' =>
      obtain ⟨hrun, hcode⟩ := hy.fault err' hfault d
      rw [Findings.fault?_append_of_some hfault] at herr
      rw [run_bind_error hrun, Findings.reads_append_of_some hfault, Option.some.inj herr]
      exact ⟨rfl, hcode⟩
    | none =>
      obtain ⟨a, ts, hok, hcode, -, ha⟩ := hy.result hfault d
      rw [Findings.fault?_append hfault] at herr
      rw [run_bind_ok hok, Findings.reads_append hfault, List.foldl_append]
      have h := (hf _ a ts ha).fault err herr (y.run d).2
      rwa [hcode] at h
  result hnone d := by
    cases hfault : fs.fault? with
    | some err =>
      rw [Findings.fault?_append_of_some hfault] at hnone
      cases hnone
    | none =>
      obtain ⟨a, ts, hok, hcode, hts, ha⟩ := hy.result hfault d
      rw [Findings.fault?_append hfault] at hnone
      rw [run_bind_ok hok, Findings.reads_append hfault, List.foldl_append]
      have h := (hf _ a ts ha).result hnone (y.run d).2
      rw [hcode] at h
      obtain ⟨r, ts', hok', hcode', hts', hr⟩ := h
      refine ⟨r, ts ++ ts', hok', hcode', ?_, a, ts, ts', rfl, ?_, hr⟩
      · rw [hts', hts, List.append_assoc]
      · exact hR ha (Code.sources_foldl_read _ _)

end Finds

namespace Reads

variable {x : Lower α} {fs gs : Findings} {Q : Code → α → List VarId → Prop}

theorem pure {a : α} (h : ∀ c, Q c a []) : Reads m (pure a) [] Q :=
  Finds.lift (z := Pure.pure a) (fun _ => rfl) h

/-- A function of the result. -/
theorem map (hx : Reads m x fs Q) (g : α → β)
    (hQ : ∀ {c c₁ : Code} {a ts}, Q c a ts → c.sources <+: c₁.sources → Q c₁ a ts) :
    Reads m (do return g (← x)) fs fun c r ts => ∃ a, Q c a ts ∧ r = g a := by
  have hpure : ∀ c a ts, Q c a ts → Reads m (Pure.pure (g a) : Lower β) [] fun _ r ts =>
      r = g a ∧ ts = [] := fun _ _ _ _ => .pure fun _ => ⟨rfl, rfl⟩
  have h := Finds.bind hx hQ hpure
  rw [List.append_nil] at h
  refine h.conseq ?_
  rintro c _ _ ⟨a, ts, _, rfl, ha, rfl, rfl⟩
  exact ⟨a, (List.append_nil ts).symm ▸ ha, rfl⟩

theorem mapM {f : β → Lower α} {g : β → Findings} {R : Code → β → α → List VarId → Prop}
    (hR : ∀ {c c₁ : Code} {b a ts}, R c b a ts → c.sources <+: c₁.sources → R c₁ b a ts)
    (hf : ∀ b, Reads m (f b) (g b) fun c => R c b) (l : List β) :
    Reads m (l.mapM f) (l.flatMap g) fun c => InTurn (R c) l := by
  induction l with
  | nil => exact .pure fun _ => .nil
  | cons b l ih =>
    rw [List.mapM_cons, List.flatMap_cons]
    have hlist : ∀ a, Reads m (do return a :: (← l.mapM f)) (l.flatMap g) fun c as ts =>
        ∃ as', as = a :: as' ∧ InTurn (R c) l as' ts := by
      intro a
      refine (ih.map (a :: ·) fun h hsources => h.imp fun _ _ _ h => hR h hsources).conseq ?_
      rintro c _ ts ⟨as, has, rfl⟩
      exact ⟨as, rfl, has⟩
    refine (Finds.bind (hf b) hR fun _ a _ _ => hlist a).conseq ?_
    rintro c _ _ ⟨a, ts₁, ts₂, rfl, ha, as, rfl, has⟩
    exact .cons ha has

end Reads

/-! ### Locals and operands -/

/-- A local that holds references has a variable once it was read. -/
theorem localVar_of_reference {decl : LocalDecl} (href : decl.ty.isReference = true) (l : LocalId)
    (d : Draft) : ∃ slot, (Drafting.localVar m l decl d).1 = some ⟨m, slot⟩ ∧
      (Drafting.localVar m l decl d).2.code = d.code.read (.local l decl href) ∧
      (d.code.read (.local l decl href)).localSlot? l = some slot := by
  rw [localVar_run, href, if_pos rfl, Code.read]
  cases hslot : d.code.localSlot? l with
  | some slot => exact ⟨slot, rfl, rfl, hslot⟩
  | none =>
    refine ⟨d.code.vars.length, rfl, rfl, ?_⟩
    rw [Code.localSlot?_eq] at hslot
    rw [Code.localSlot?_eq, Code.sources_pushVar, List.findIdx?_append, hslot]
    simp

theorem reads_localVar (l : LocalId) : Reads m (localVar p m b l) (b.findLocal p m l)
    fun c v ts => LocalAt m b c l v ∧ ts = [] := by
  unfold localVar Body.findLocal
  cases hdecl : b.locals[l.num]? with
  | none => exact .throw
  | some decl =>
    cases href : decl.ty.isReference with
    | false =>
      have hrun : ∀ d, Drafting.localVar m l decl d = (none, d) := fun d => by
        rw [localVar_run, href]
        rfl
      simp only [href, Bool.false_eq_true, dite_false]
      exact Finds.lift (fun d => by rw [hrun]) fun c => ⟨.other hdecl href, rfl⟩
    | true =>
      simp only [href, dite_true]
      refine ⟨by rintro _ ⟨⟩, fun _ d => ?_⟩
      obtain ⟨slot, hslot, hcode, hread⟩ := localVar_of_reference (m := m) href l d
      refine ⟨some ⟨m, slot⟩, [], congrArg Except.ok hslot, hcode, ?_, ?_, rfl⟩
      · show (d.code.read (.local l decl href)).temporaries m = _
        rw [Code.read, List.append_nil]
        split
        · rfl
        · rw [Code.temporaries_pushVar]
          exact List.append_nil _
      · exact .reference hdecl href hread

/-- A local that holds no references is no base. -/
theorem reads_base (l : LocalId) : Reads m (base p m b l) (b.findBase p m l)
    fun c v ts => LocalAt m b c l (some v) ∧ ts = [] := by
  have hfind : b.findBase p m l = b.findLocal p m l ++
      if b.locals[l.num]?.any (!·.ty.isReference) then [(Value.local l).fault p m] else [] := by
    unfold Body.findBase Body.findLocal
    cases b.locals[l.num]? with
    | none => rfl
    | some decl => cases href : decl.ty.isReference <;> simp [href]
  rw [hfind]
  refine (Finds.bind (reads_localVar l) (fun h hsources => ⟨h.1.mono hsources, h.2⟩)
    (S := fun v _ w ts => v = some w ∧ ts = []) ?_).conseq ?_
  · rintro c _ _ ⟨h, -⟩
    cases h with
    | reference hdecl href =>
      simp only [hdecl, Option.any_some, href, Bool.not_true, Bool.false_eq_true, if_false]
      exact Reads.pure fun _ => ⟨rfl, rfl⟩
    | other hdecl href =>
      simp only [hdecl, Option.any_some, href, Bool.not_false, if_true]
      exact .throw
  · rintro c w _ ⟨_, _, _, rfl, ⟨h, rfl⟩, rfl, rfl⟩
    exact ⟨h, rfl⟩

theorem reads_temp : Reads m (liftM (Drafting.temp m "null$" .null) : Lower VarId) [.ok .null]
    fun _ v ts => ts = [v] where
  fault _ := by rintro ⟨⟩
  result _ d := by
    refine ⟨⟨m, d.code.vars.length⟩, [⟨m, d.code.vars.length⟩], rfl, rfl, ?_, rfl⟩
    show (d.code.read .null).temporaries m = _
    rw [Code.read, Code.temporaries_pushVar]
    rfl

theorem reads_tell (level : Level) (text : String) :
    Reads m (liftM (Drafting.tell level text) : Lower Unit) [] fun _ _ ts => ts = [] :=
  Finds.lift (fun _ => rfl) fun _ => rfl

theorem reads_operand (v : Value) : Reads m (operand p m b v) (b.findOperand p m v)
    fun c => OperandAt m b c v := by
  cases v with
  | «local» l =>
    refine (reads_localVar l).conseq ?_
    rintro c v _ ⟨h, rfl⟩
    exact .local h
  | null =>
    refine (reads_temp.map some fun h _ => h).conseq ?_
    rintro c _ _ ⟨t, rfl, rfl⟩
    exact .null t
  | int | long | double => exact .pure fun _ => .constant rfl
  | string | classConst =>
    refine ((reads_tell _ _).map (fun _ => none) fun h _ => h).conseq ?_
    rintro c _ _ ⟨_, rfl, rfl⟩
    exact .constant rfl
  | _ => exact .throw

theorem reads_locals (ls : List LocalId) :
    Reads m (ls.mapM (localVar p m b)) (ls.flatMap (b.findLocal p m)) fun c vs ts =>
      List.Forall₂ (LocalAt m b c) ls vs ∧ ts = [] := by
  refine (Reads.mapM (R := fun c l v ts => LocalAt m b c l v ∧ ts = [])
    (fun h hsources => ⟨h.1.mono hsources, h.2⟩) reads_localVar ls).conseq ?_
  intro c vs ts h
  induction h with
  | nil => exact ⟨.nil, rfl⟩
  | cons head _ ih => exact ⟨.cons head.1 ih.1, by rw [head.2, ih.2, List.append_nil]⟩

theorem reads_operands (vs : List Value) :
    Reads m (vs.mapM (operand p m b)) (vs.flatMap (b.findOperand p m)) fun c =>
      InTurn (OperandAt m b c) vs :=
  Reads.mapM (fun h hsources => h.mono hsources) reads_operand vs

/-! ### Steps after a local or an operand -/

section

variable {last : ρ → Code → α × Code} {gs : Findings}

theorem bind_localVar {l : LocalId} {f : Option VarId → Lower α}
    {S : Option VarId → Code → ρ → List VarId → Prop} (hf : ∀ v, Finds m last (f v) gs (S v)) :
    Finds m last (localVar p m b l >>= f) (b.findLocal p m l ++ gs) fun c r ts =>
      ∃ v, LocalAt m b c l v ∧ S v c r ts := by
  refine (Finds.bind (reads_localVar l) (fun h hsources => ⟨h.1.mono hsources, h.2⟩)
    fun _ v _ _ => hf v).conseq ?_
  rintro c r _ ⟨v, _, ts, rfl, ⟨hv, rfl⟩, hr⟩
  exact ⟨v, hv, hr⟩

theorem bind_base {l : LocalId} {f : VarId → Lower α}
    {S : VarId → Code → ρ → List VarId → Prop} (hf : ∀ v, Finds m last (f v) gs (S v)) :
    Finds m last (base p m b l >>= f) (b.findBase p m l ++ gs) fun c r ts =>
      ∃ v, LocalAt m b c l (some v) ∧ S v c r ts := by
  refine (Finds.bind (reads_base l) (fun h hsources => ⟨h.1.mono hsources, h.2⟩)
    fun _ v _ _ => hf v).conseq ?_
  rintro c r _ ⟨v, _, ts, rfl, ⟨hv, rfl⟩, hr⟩
  exact ⟨v, hv, hr⟩

theorem bind_operand {v : Value} {f : Option VarId → Lower α}
    {S : Option VarId → Code → ρ → List VarId → Prop} (hf : ∀ x, Finds m last (f x) gs (S x)) :
    Finds m last (operand p m b v >>= f) (b.findOperand p m v ++ gs) fun c r ts =>
      ∃ x ts₁ ts₂, ts = ts₁ ++ ts₂ ∧ OperandAt m b c v x ts₁ ∧ S x c r ts₂ :=
  Finds.bind (reads_operand v) (fun h hsources => h.mono hsources) fun _ x _ _ => hf x

end

end Lower

end PointsTo
