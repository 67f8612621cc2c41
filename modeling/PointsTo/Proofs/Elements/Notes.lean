import PointsTo.Proofs.Elements.Bodies

/-!
# Statements and the variables that they depend on

A statement of a body is noted with the variable that it depends on. So it is found when objects
arrive there, as long as the variable is there when the statement is added.

* `Code.Minds` and `Elements.Minds`: a statement is noted with the variable that it depends on;
* `Lower.kept_notes`: lowering notes the statements that it makes, whatever code was there before;
* `Request.Grounded`: a request that adds to a body names a variable that is there;
* `Elements.Noted`: all statements of bodies are noted, and `Elements.DevelopsBy.noted`: so it is
  after such requests.
-/

namespace PointsTo

namespace Code

variable {m : MethodId} {c c₀ c₁ : Code} {s : StmtId} {st : Stmt}

/-- The statement `s` of the code of `m` is noted with the variable that it depends on, and all this
is in the code. -/
def Minds (c : Code) (m : MethodId) (s : StmtId) : Prop :=
  s.method = m ∧ ∃ x, c.stmts[s.slot]? = some x ∧
    (∀ id lhs, x.stmt = .call id lhs → id.method = m ∧ ∃ t, c.sites[id.slot]? = some t) ∧
    ∀ v role, c.anchor? x.stmt = some (v, role) →
      v.method = m ∧ ∃ y, c.vars[v.slot]? = some y ∧ s ∈ y.dependents

theorem Minds.mono (h : c.Minds m s) (hc : Continues m c c₁) (hr : c.Retains c₁) :
    c₁.Minds m s := by
  obtain ⟨hm, x, hx, hsite, hanchor⟩ := h
  refine ⟨hm, x, getElem?_of_isPrefix hc.stmts hx, fun id lhs heq => ?_, fun v role hv => ?_⟩
  · obtain ⟨hid, t, ht⟩ := hsite id lhs heq
    exact ⟨hid, t, getElem?_of_isPrefix hc.sites ht⟩
  · have hsame : c₁.anchor? x.stmt = c.anchor? x.stmt := by
      cases hst : x.stmt with
      | alloc | assign | load | store => rfl
      | call id lhs =>
        obtain ⟨-, t, ht⟩ := hsite id lhs hst
        simp only [anchor?, receiver?, ht, getElem?_of_isPrefix hc.sites ht]
    obtain ⟨hvm, y, hy, hs⟩ := hanchor v role (hsame.symm.trans hv)
    obtain ⟨y₁, hy₁, hkept⟩ := hr v.slot y hy
    exact ⟨hvm, y₁, hy₁, hkept s hs⟩

/-- The statement at the end is noted, if its variable was there. -/
theorem Extends.minds {new : List CallSite} (h : Extends m st new c c₁)
    (hsite : ∀ id lhs, st = .call id lhs → id.method = m ∧ ∃ t, c₁.sites[id.slot]? = some t)
    (hvar : ∀ v role, c₁.anchor? st = some (v, role) → c.HasVar m v) :
    c₁.Minds m ⟨m, c.stmts.length⟩ := by
  refine ⟨rfl, ⟨st, c.body.length, false⟩, ?_, hsite, fun v role hv => ?_⟩
  · rw [h.stmts_eq, List.getElem?_concat_length]
  · obtain ⟨hvm, hslot⟩ := hvar v role hv
    refine ⟨hvm, c.vars[v.slot].register role ⟨m, c.stmts.length⟩, ?_,
      Var.mem_dependents_register.2 (.inr rfl)⟩
    rw [h.vars_eq, hv]
    simp [hslot]

/-- The variable that a statement depends on is there, if its parts are. -/
theorem Fits.hasVar_anchor {i : Nat} {v : VarId} {role : Role} (h : c.Fits m i st)
    (hcall : ∀ id lhs, st ≠ .call id lhs) (hv : c₁.anchor? st = some (v, role)) : c.HasVar m v := by
  cases st with
  | alloc | assign => cases hv
  | load lhs base f =>
    cases hv
    exact h.2
  | store base f rhs =>
    cases hv
    exact h.1
  | call id lhs => exact absurd rfl (hcall id lhs)

/-- The statements of the body that `c₀` does not have are noted. -/
def Notes (m : MethodId) (c₀ c : Code) : Prop := ∀ s ∈ c.body, s ∈ c₀.body ∨ c.Minds m s

theorem Notes.edit (h : Notes m c₀ c) (he : Edit m c c₁) (hbody : c₁.body = c.body) :
    Notes m c₀ c₁ := by
  intro s hs
  rw [hbody] at hs
  exact (h s hs).imp_right fun hm => hm.mono he.continues (Edits.retains (.single he))

theorem Notes.extend (h : Notes m c₀ c) (he : Edit m c c₁) {new : List CallSite}
    (hext : Extends m st new c c₁)
    (hsite : ∀ id lhs, st = .call id lhs → id.method = m ∧ ∃ t, c₁.sites[id.slot]? = some t)
    (hvar : ∀ v role, c₁.anchor? st = some (v, role) → c.HasVar m v) : Notes m c₀ c₁ := by
  intro s hs
  rw [hext.body_eq] at hs
  rcases List.mem_append.1 hs with hs | hs
  · exact (h s hs).imp_right fun hm => hm.mono he.continues (Edits.retains (.single he))
  · rw [List.mem_singleton.1 hs]
    exact .inr (hext.minds hsite hvar)

end Code

/-- Lowering notes the statements that it makes. -/
theorem Lower.kept_notes (m : MethodId) (c₀ : Code) : Lower.Kept m (Code.Notes m c₀) where
  var h _ := h.edit (.var _) rfl
  temp h := h.edit .temp rfl
  stmt {c st} h hfits hcall :=
    h.extend (.stmt hcall) (c.extends_addStmt hcall) (fun id lhs heq => absurd heq (hcall id lhs))
      fun _ _ => hfits.hasVar_anchor hcall
  call {c t lhs} h ht hnone hlhs := by
    have hext := c.extends_addCall (m := m) hnone lhs
    have hsite : ((c.pushSite t).addStmt m (.call ⟨m, c.sites.length⟩ lhs)).sites[c.sites.length]? =
        some { t with call := some ⟨m, c.stmts.length⟩ } := by
      rw [hext.sites_eq, List.getElem?_concat_length]
    refine h.extend (.call hnone lhs) hext ?_ fun v role hv => ?_
    · rintro id lhs' ⟨⟩
      exact ⟨rfl, _, hsite⟩
    · simp only [Code.anchor?, Code.receiver?, hsite, Option.bind_some] at hv
      obtain ⟨w, hw, heq⟩ := Option.map_eq_some_iff.1 hv
      cases heq
      exact ht.1 v hw
  bodySite id h := h.edit (.bodySite id) rfl
  this h _ := h.edit (.interface _ _ _) rfl
  params h _ := h.edit (.interface _ _ _) rfl
  returns h _ := h.edit (.interface _ _ _) rfl

namespace Elements

variable {e e₁ : Elements} {m : MethodId} {r : Request} {s : StmtId} {st : Stmt} {v : VarId}

/-- The tables have the variable. -/
def HasVar (e : Elements) (v : VarId) : Prop := v.slot < (e.code v.method).vars.length

instance (e : Elements) (v : VarId) : Decidable (e.HasVar v) := inferInstanceAs (Decidable (_ < _))

/-- The statement `s` is noted with the variable that it depends on. -/
def Minds (e : Elements) (s : StmtId) : Prop :=
  ∃ st, e.Has s st ∧ ∀ v role, e.anchor? st = some (v, role) → s ∈ (e.var v).dependents

/-- The statements of all bodies are noted with the variables that they depend on. -/
def Noted (e : Elements) : Prop := ∀ m, ∀ s ∈ (e.code m).body, e.Minds s

/-! ### What was noted stays so -/

theorem mem_dependents_of_retains (h : (e.code v.method).Retains (e₁.code v.method))
    (hs : s ∈ (e.var v).dependents) : s ∈ (e₁.var v).dependents := by
  simp only [var, List.getD_eq_getElem?_getD] at hs ⊢
  cases hx : (e.code v.method).vars[v.slot]? with
  | none =>
    rw [hx] at hs
    exact absurd hs List.not_mem_nil
  | some x =>
    rw [hx] at hs
    obtain ⟨x₁, hx₁, hkept⟩ := h v.slot x hx
    rw [hx₁]
    exact hkept s hs

/-- A call depends on the same variable as long as its call site stays. -/
theorem Grows.anchor?_eq (h : e.Grows e₁) (hst : e.admits st = true) :
    e₁.anchor? st = e.anchor? st := by
  cases st with
  | alloc | assign | load | store => rfl
  | call id lhs =>
    obtain ⟨t, ht⟩ := Option.isSome_iff_exists.1 hst
    simp only [anchor?, (h.site ht).receiver_eq]

theorem Sound.admits_of_has (h : e.Sound) (hs : e.Has s st) : e.admits st = true := by
  cases st with
  | alloc | assign | load | store => rfl
  | call id lhs =>
    obtain ⟨t, -, ht, -⟩ := h.owned s id lhs hs
    simp [admits, ht]

theorem Minds.mono (h : e.Minds s) (hsound : e.Sound) (hgrows : e.Grows e₁)
    (hr : ∀ m, (e.code m).Retains (e₁.code m)) : e₁.Minds s := by
  obtain ⟨st, hst, hanchor⟩ := h
  refine ⟨st, hgrows.has hst, fun v role hv => ?_⟩
  rw [hgrows.anchor?_eq (hsound.admits_of_has hst)] at hv
  exact mem_dependents_of_retains (hr v.method) (hanchor v role hv)

theorem minds_of_code (h : (e.code m).Minds m s) : e.Minds s := by
  obtain ⟨rfl, x, hx, hsite, hanchor⟩ := h
  refine ⟨x.stmt, has_iff.2 ⟨x, hx, rfl⟩, fun v role hv => ?_⟩
  have hsame : e.anchor? x.stmt = (e.code s.method).anchor? x.stmt := by
    cases hst : x.stmt with
    | alloc | assign | load | store => rfl
    | call id lhs =>
      obtain ⟨hid, t, ht⟩ := hsite id lhs hst
      have ht' : e.site? id = some t := by rw [site?, hid, ht]
      simp only [anchor?, Code.anchor?, Code.receiver?, site_of_site? ht', ht, Option.bind_some]
  obtain ⟨hvm, y, hy, hs⟩ := hanchor v role (hsame.symm.trans hv)
  rw [var, List.getD_eq_getElem?_getD, hvm, hy]
  exact hs

/-! ### New statements -/

theorem HasVar.mem_keys (h : e.HasVar v) : v.method ∈ e.methods.keys := by
  by_cases hin : v.method ∈ e.methods.keys
  · exact hin
  · have hcode : e.code v.method = {} := by
      rw [code, Table.get, Table.find?_eq_none_iff.2 hin]
      rfl
    rw [HasVar, hcode] at h
    exact absurd h (Nat.not_lt_zero _)

/-- A statement that is put in the body is noted, if its variable is there. -/
theorem minds_place (hm : m ∈ e.methods.keys) (hst : e.admits st = true)
    (hvar : ∀ v role, e.anchor? st = some (v, role) → e.HasVar v) :
    (e.place m st false).Minds (e.nextStmt m) := by
  refine ⟨st, (has_place st false hm).2 (.inr ⟨rfl, rfl⟩), fun v role hv => ?_⟩
  rw [(e.grows_place m st false).anchor?_eq hst] at hv
  have hslot := hvar v role hv
  set owned := e.own st (e.nextStmt m) with howned
  have hkeys : v.method ∈ owned.methods.keys := by
    have hsame : owned.methods.keys = e.methods.keys := by
      cases st with
      | alloc | assign | load | store => rfl
      | call id lhs => exact Table.keys_modify _ _ _
    exact hsame ▸ hslot.mem_keys
  have hvars : (owned.code v.method).vars = (e.code v.method).vars := by
    cases st with
    | alloc | assign | load | store => rfl
    | call id lhs =>
      rcases e.code_modifyCode_cases id.method (·.bindSite id.slot (e.nextStmt m)) v.method with
        hc | ⟨-, hc⟩ <;> rw [howned, own, hc]
      rfl
  -- the note is made before the statement is put in its place
  have hnoted : (e.noted m st false).code v.method =
      (owned.code v.method).register v.slot role (e.nextStmt m) := by
    have hanchor : owned.anchor? st = some (v, role) :=
      ((e.grows_own st _).anchor?_eq hst).trans hv
    simp only [noted, Bool.false_eq_true, if_false, note, ← howned, hanchor]
    rw [code_modifyCode _ hkeys, if_pos rfl]
  have hplaced : ((e.place m st false).code v.method).vars =
      (e.code v.method).vars.modify v.slot (·.register role (e.nextStmt m)) := by
    rw [code_place, ← hvars]
    rcases (e.noted m st false).code_modifyCode_cases m (·.pushStmt m st false) v.method with
      hc | ⟨-, hc⟩ <;> rw [hc, hnoted] <;> rfl
  rw [var, List.getD_eq_getElem?_getD, hplaced, List.getElem?_modify_eq,
    List.getElem?_eq_getElem hslot]
  exact Var.mem_dependents_register.2 (.inr rfl)

theorem minds_addStmt (e : Elements) (m : MethodId)
    (hvar : ∀ v role, e.anchor? st = some (v, role) → e.HasVar v)
    (hs : s ∈ ((e.addStmt m st false).2.code m).body) :
    s ∈ (e.code m).body ∨ (e.addStmt m st false).2.Minds s := by
  set e₁ := st.mentions.foldl mention (e.addMethod m) with he₁
  have hframe := foldl_mention_frame st.mentions (e.addMethod m)
  have hcode : ∀ m', e₁.code m' = e.code m' :=
    fun m' => (hframe.2.2.1 m').trans (e.code_addMethod m m')
  have hkeys : m ∈ e₁.methods.keys := hframe.2.2.2 m (e.mem_keys_addMethod m)
  simp only [addStmt, ← he₁] at hs ⊢
  split at hs <;> rename_i hst
  · rw [if_pos hst]
    have hbody : ((e₁.place m st false).code m).body = (e.code m).body ++ [e₁.nextStmt m] := by
      have htouches : Code.Touches m False (e₁.code m) ((e₁.noted m st false).code m) :=
        touches_noted false
      have hnoted := htouches.body_eq id
      have hstmts := (e₁.code_noted m st false m).1
      rw [code_place, code_modifyCode _ (e₁.keys_noted m st false ▸ hkeys), if_pos rfl, ← hcode]
      simp only [Code.pushStmt, Bool.false_eq_true, if_false, hnoted, hstmts, nextStmt]
    rw [hbody] at hs
    rcases List.mem_append.1 hs with hs | hs
    · exact .inl hs
    · rw [List.mem_singleton.1 hs]
      refine .inr (minds_place hkeys hst fun v role hv => ?_)
      have hanchor : e₁.anchor? st = e.anchor? st := by
        cases st <;> simp only [anchor?, site, hcode]
      rw [HasVar, hcode]
      exact hvar v role (hanchor.symm.trans hv)
  · rw [hcode] at hs
    exact .inl hs

end Elements

/-! ### Requests -/

/-- A request that adds to a body names a variable that is there. -/
def Request.Grounded (e : Elements) : Request → Prop
  | .addStmt _ st false => ∀ v role, e.anchor? st = some (v, role) → e.HasVar v
  | .addCall _ _ _ (some v) _ _ false => e.HasVar v
  | _ => True

namespace Elements

variable {e e₁ : Elements} {m : MethodId} {r : Request} {s : StmtId} {st : Stmt} {v : VarId}

/-- A call on a new call site depends on the receiver of the call site. -/
theorem hasVar_newSite {kind : CallKind} {target : MethodId} {receiver : Option VarId}
    {args : List (Option VarId)} {lhs : Option VarId} {role : Role}
    (hvar : ∀ v, receiver = some v → e.HasVar v)
    (hv : (e.newSite m kind target receiver args).2.anchor?
      (.call (e.newSite m kind target receiver args).1 lhs) = some (v, role)) :
    (e.newSite m kind target receiver args).2.HasVar v := by
  rw [anchor?, site_of_site? (e.site?_newSite m kind target receiver args)] at hv
  obtain ⟨w, hw, heq⟩ := Option.map_eq_some_iff.1 hv
  cases heq
  have htouches := touches_newSite e v.method m False kind target receiver args
  obtain ⟨x, hx, -⟩ := htouches.retains v.slot _ (List.getElem?_eq_getElem (hvar v hw))
  exact (List.getElem?_eq_some_iff.1 hx).1

theorem minds_addCall (hsound : e.Sound) {kind : CallKind} {target : MethodId}
    {receiver : Option VarId} {args : List (Option VarId)} {lhs : Option VarId}
    (hvar : ∀ v, receiver = some v → e.HasVar v)
    (hs : s ∈ ((e.addCall m kind target receiver args lhs false).2.code m).body) :
    s ∈ (e.code m).body ∨ (e.addCall m kind target receiver args lhs false).2.Minds s := by
  set site := e.newSite m kind target receiver args with hsite
  set call := site.2.addStmt m (.call site.1 lhs) false with hcall
  have htouches : ∀ m', Code.Touches m' False (e.code m') (site.2.code m') :=
    fun m' => touches_newSite e m' m False kind target receiver args
  have hcallSound : call.2.Sound :=
    ((makes_newSite m kind target receiver args).sound hsound).addStmt m _ false
  have hstep : ∀ m', Code.Touches m' False (call.2.code m')
      ((e.addCall m kind target receiver args lhs false).2.code m') := by
    intro m'
    exact touches_modifyCode fun c _ => .bodySite site.1
  have hgrows : call.2.Grows (e.addCall m kind target receiver args lhs false).2 :=
    grows_modifyCode fun c => ⟨List.prefix_refl _, fun _ t ht => ⟨t, ht, .refl t⟩,
      fun h => ⟨h, rfl, rfl, rfl⟩⟩
  rw [(hstep m).body_eq id] at hs
  rcases minds_addStmt site.2 m (fun _ _ => hasVar_newSite hvar) hs with hs | hs
  · rw [(htouches m).body_eq id] at hs
    exact .inl hs
  · exact .inr (hs.mono hcallSound hgrows fun m' => (hstep m').retains)

theorem minds_lower (e : Elements) (hs : s ∈ ((e.lower m).2.code m).body) :
    s ∈ (e.code m).body ∨ (e.lower m).2.Minds s := by
  by_cases hb : e.isBuilt m = true
  · rw [code_lower_of_built hb] at hs
    exact .inl hs
  · have hcode := code_lower_of_not_built hb m
    rw [if_pos rfl] at hcode
    have hnotes := (Lower.triple_method (Lower.kept_notes m (e.code m)) e.program
      { code := { e.code m with built := true } } (fun s hs => .inl hs) trivial).1.kept
    rw [← hcode] at hnotes
    exact (hnotes s hs).imp_right minds_of_code

theorem Noted.serve (h : e.Noted) (hsound : e.Sound) (hr : r.Grounded e) :
    (e.serve r).2.Noted := by
  intro m s hs
  have hold : s ∈ (e.code m).body → (e.serve r).2.Minds s := fun hs =>
    (h m s hs).mono hsound (e.grows_serve r) (Develops.refl.serve r).retains
  by_cases hb : r.Builds m
  · -- what is new in the body is noted as it is added
    cases r with
    | lower m' =>
      cases hb
      exact (e.minds_lower hs).elim hold id
    | addStmt m' st synthetic =>
      obtain ⟨rfl, rfl⟩ := hb
      exact (e.minds_addStmt m' hr hs).elim hold id
    | addCall m' kind target receiver args lhs synthetic =>
      obtain ⟨rfl, rfl⟩ := hb
      refine (minds_addCall hsound (fun v hv => ?_) hs).elim hold id
      subst hv
      exact hr
    | type | method | field | localVar | newVar | temp | newSite | resolve | dispatch =>
      exact hb.elim
  · have hlower : r ≠ .lower m := by
      rintro rfl
      exact hb rfl
    rw [(touches_serve e hlower).body_eq hb] at hs
    exact hold hs

/-- The statements of bodies stay noted, if requests name variables that are there. -/
theorem DevelopsBy.noted {R : Elements → Request → Prop} (h : e.DevelopsBy R e₁)
    (hR : ∀ e r, R e r → r.Grounded e) (hsound : e.Sound) (he : e.Noted) : e₁.Noted := by
  induction h with
  | refl => exact he
  | serve h hr ih => exact ih.serve (h.develops.sound hsound) (hR _ _ hr)
  | tell _ _ _ ih => exact ih

end Elements

end PointsTo
