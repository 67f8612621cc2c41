import Mathlib.Tactic.Set
import Mathlib.Tactic.Tauto
import PointsTo.Code.Lowering

/-!
# Well-formed code

Code that comes from lowering a body is well formed (`Code.WellFormed`):

* the variables in it belong to its method and are in its list of variables;
* its body consists of all its statements, in order, and none is synthetic;
* each call site is owned by one call, which is on that site;
* a variable knows exactly the statements that depend on it.

Here well-formedness is shown to survive each way in which lowering extends code: a new variable
(`WellFormed.pushVar`), a statement (`WellFormed.addStmt`) and a call with its site
(`WellFormed.addCall`).
-/

namespace PointsTo

namespace Var

theorem mem_dependents_register {v : Var} {role : Role} {s s' : StmtId} :
    s' ∈ (v.register role s).dependents ↔ s' ∈ v.dependents ∨ s' = s := by
  cases role <;> simp only [register, dependents, List.mem_append, List.mem_singleton] <;> tauto

end Var

namespace Code

/-- `v` is a variable of `m` that the code has. -/
def HasVar (c : Code) (m : MethodId) (v : VarId) : Prop :=
  v.method = m ∧ v.slot < c.vars.length

/-- The parts of a statement at position `i` are those of the code; a call owns its site. -/
def Fits (c : Code) (m : MethodId) (i : Nat) : Stmt → Prop
  | .alloc lhs _ => c.HasVar m lhs
  | .assign lhs rhs => c.HasVar m lhs ∧ c.HasVar m rhs
  | .load lhs base _ => c.HasVar m lhs ∧ c.HasVar m base
  | .store base _ rhs => c.HasVar m base ∧ c.HasVar m rhs
  | .call site lhs =>
    site.method = m ∧ (∀ v, lhs = some v → c.HasVar m v) ∧
      ∃ t, c.sites[site.slot]? = some t ∧ t.call = some ⟨m, i⟩

/-- The receiver and the arguments of a call site are variables of the code. -/
def FitsSite (c : Code) (m : MethodId) (t : CallSite) : Prop :=
  (∀ v, t.receiver = some v → c.HasVar m v) ∧ ∀ v, some v ∈ t.args → c.HasVar m v

/-- The variable that a statement depends on. -/
def base? (c : Code) (s : Stmt) : Option VarId := (c.anchor? s).map Prod.fst

/-- Well-formed code of the method `m`. -/
structure WellFormed (m : MethodId) (c : Code) : Prop where
  this_has : ∀ v, c.this = some v → c.HasVar m v
  params_have : ∀ v, some v ∈ c.params → c.HasVar m v
  returns_have : ∀ v ∈ c.returns, c.HasVar m v
  body_eq : c.body = (List.range c.stmts.length).map (StmtId.mk m)
  index_eq : ∀ (i : Nat) t, c.stmts[i]? = some t → t.index = i ∧ t.synthetic = false
  fits : ∀ (i : Nat) t, c.stmts[i]? = some t → c.Fits m i t.stmt
  site_fits : ∀ (j : Nat) t, c.sites[j]? = some t → c.FitsSite m t
  site_call : ∀ (j : Nat) t, c.sites[j]? = some t → ∃ i lhs,
    t.call = some ⟨m, i⟩ ∧ (c.stmts[i]?).map PlacedStmt.stmt = some (.call ⟨m, j⟩ lhs)
  dependents : ∀ (j : Nat) x, c.vars[j]? = some x → ∀ s, s ∈ x.dependents ↔
    s.method = m ∧ ∃ t, c.stmts[s.slot]? = some t ∧ c.base? t.stmt = some ⟨m, j⟩

variable {m : MethodId} {c c' : Code}

/-- Code without variables, statements and call sites is well formed. -/
theorem WellFormed.empty (built : Bool) : WellFormed m { built } where
  this_has _ h := nomatch h
  params_have _ h := nomatch h
  returns_have _ h := nomatch h
  body_eq := rfl
  index_eq _ _ h := nomatch h
  fits _ _ h := nomatch h
  site_fits _ _ h := nomatch h
  site_call _ _ h := nomatch h
  dependents _ _ h := nomatch h

/-! ### Growing lists of variables and call sites -/

theorem HasVar.mono {v : VarId} (h : c.HasVar m v) (hle : c.vars.length ≤ c'.vars.length) :
    c'.HasVar m v :=
  ⟨h.1, Nat.lt_of_lt_of_le h.2 hle⟩

theorem FitsSite.mono {t : CallSite} (h : c.FitsSite m t)
    (hle : c.vars.length ≤ c'.vars.length) : c'.FitsSite m t :=
  ⟨fun v hv => (h.1 v hv).mono hle, fun v hv => (h.2 v hv).mono hle⟩

theorem Fits.mono {i : Nat} {s : Stmt} (h : c.Fits m i s) (hle : c.vars.length ≤ c'.vars.length)
    (hs : ∀ (j : Nat) t, c.sites[j]? = some t → c'.sites[j]? = some t) : c'.Fits m i s := by
  cases s with
  | alloc lhs ty => exact HasVar.mono h hle
  | assign lhs rhs => exact ⟨h.1.mono hle, h.2.mono hle⟩
  | load lhs base f => exact ⟨h.1.mono hle, h.2.mono hle⟩
  | store base f rhs => exact ⟨h.1.mono hle, h.2.mono hle⟩
  | call site lhs =>
    obtain ⟨hm, hl, t, ht, hc⟩ := h
    exact ⟨hm, fun v hv => (hl v hv).mono hle, t, hs _ t ht, hc⟩

/-- What a statement depends on stays when call sites are added. -/
theorem Fits.base?_eq {i : Nat} {s : Stmt} (h : c.Fits m i s)
    (hs : ∀ (j : Nat) t, c.sites[j]? = some t → c'.sites[j]? = some t) :
    c'.base? s = c.base? s := by
  cases s with
  | alloc | assign | load | store => rfl
  | call site lhs =>
    obtain ⟨-, -, t, ht, -⟩ := h
    simp only [base?, anchor?, receiver?, ht, hs _ t ht]

/-- The variable that a fitting statement depends on is one of the code. -/
theorem Fits.hasVar_base {i : Nat} {s : Stmt} {v : VarId} (h : c.Fits m i s)
    (hw : ∀ (j : Nat) t, c.sites[j]? = some t → c.FitsSite m t) (hv : c.base? s = some v) :
    c.HasVar m v := by
  cases s with
  | alloc | assign => simp [base?, anchor?] at hv
  | load lhs base f =>
    cases hv
    exact h.2
  | store base f rhs =>
    cases hv
    exact h.1
  | call site lhs =>
    obtain ⟨-, -, t, ht, -⟩ := h
    simp only [base?, anchor?, receiver?, ht, Option.bind_some, Option.map_map] at hv
    obtain ⟨w, hw', rfl⟩ := Option.map_eq_some_iff.1 hv
    exact (hw _ t ht).1 w hw'

theorem WellFormed.pushVar (h : c.WellFormed m) {x : Var} (hx : x.dependents = []) :
    (c.pushVar x).WellFormed m where
  this_has v hv := (h.this_has v hv).mono (by simp [Code.pushVar])
  params_have v hv := (h.params_have v hv).mono (by simp [Code.pushVar])
  returns_have v hv := (h.returns_have v hv).mono (by simp [Code.pushVar])
  body_eq := h.body_eq
  index_eq := h.index_eq
  fits i t ht := (h.fits i t ht).mono (by simp [Code.pushVar]) fun _ _ => id
  site_fits j t ht := (h.site_fits j t ht).mono (by simp [Code.pushVar])
  site_call := h.site_call
  dependents j y hy s := by
    simp only [Code.pushVar, List.getElem?_append] at hy
    split at hy
    · exact h.dependents j y hy s
    · rename_i hj
      obtain ⟨hj', rfl⟩ : j - c.vars.length = 0 ∧ x = y := by
        rw [List.getElem?_singleton] at hy
        split at hy <;> simp_all
      rw [hx]
      -- no statement depends on a variable that was not there before
      refine ⟨fun hs => by simp at hs, ?_⟩
      rintro ⟨-, t, ht, hb⟩
      have hv := (h.fits _ t ht).hasVar_base h.site_fits hb
      exact absurd hv.2 hj

/-! ### Adding statements -/

theorem anchor?_bindSite (c : Code) (slot : Nat) (id : StmtId) (s : Stmt) :
    (c.bindSite slot id).anchor? s = c.anchor? s := by
  cases s with
  | alloc | assign | load | store => rfl
  | call site lhs =>
    simp only [anchor?, receiver?, bindSite, List.getElem?_modify]
    cases c.sites[site.slot]? with
    | none => rfl
    | some t => by_cases h : slot = site.slot <;> simp [h]

/-- The variables after a statement was added. -/
theorem vars_addStmt (c : Code) (m : MethodId) (s : Stmt) :
    (c.addStmt m s).vars = match c.anchor? s with
      | some (v, role) => c.vars.modify v.slot (·.register role ⟨m, c.stmts.length⟩)
      | none => c.vars := by
  cases s with
  | alloc | assign | load | store => rfl
  | call site lhs =>
    simp only [addStmt, anchor?_bindSite]
    cases c.anchor? (.call site lhs) <;> rfl

/-- The call sites after a statement was added. -/
theorem sites_addStmt (c : Code) (m : MethodId) (s : Stmt) :
    (c.addStmt m s).sites = match s with
      | .call site _ => (c.bindSite site.slot ⟨m, c.stmts.length⟩).sites
      | _ => c.sites := by
  cases s with
  | alloc | assign | load | store => rfl
  | call site lhs =>
    simp only [addStmt, anchor?_bindSite]
    cases c.anchor? (.call site lhs) <;> rfl

/-- Apart from variables and call sites, adding a statement appends it to the statements and to the
body. -/
theorem rest_addStmt (c : Code) (m : MethodId) (s : Stmt) :
    (c.addStmt m s).stmts = c.stmts ++ [⟨s, c.body.length, false⟩] ∧
      (c.addStmt m s).body = c.body ++ [⟨m, c.stmts.length⟩] ∧
      (c.addStmt m s).this = c.this ∧ (c.addStmt m s).params = c.params ∧
      (c.addStmt m s).returns = c.returns ∧ (c.addStmt m s).built = c.built := by
  cases s with
  | alloc | assign | load | store => simp [addStmt, anchor?, pushStmt, register, nextIndex]
  | call site lhs =>
    simp only [addStmt, anchor?_bindSite]
    cases c.anchor? (.call site lhs) <;> simp [pushStmt, register, bindSite, nextIndex]

/-- The call sites after a call was added together with its call site. -/
theorem sites_addCall (c : Code) (m : MethodId) {t : CallSite} (hnone : t.call = none)
    (lhs : Option VarId) :
    ((c.pushSite t).addStmt m (.call ⟨m, c.sites.length⟩ lhs)).sites =
      c.sites ++ [{ t with call := some ⟨m, c.stmts.length⟩ }] := by
  rw [sites_addStmt]
  simp only [bindSite, pushSite]
  rw [List.modify_eq_take_drop]
  simp [hnone]

/-- What registering a statement with a variable does to the statements that depend on each
variable. -/
theorem mem_dependents_modify {l : List Var} {a : Option (VarId × Role)} {id : StmtId} {j : Nat}
    {x' : Var} (s' : StmtId) (ha : ∀ v role, a = some (v, role) → v.method = m)
    (hx : (match a with
      | some (v, role) => l.modify v.slot (·.register role id)
      | none => l)[j]? = some x') :
    ∃ x, l[j]? = some x ∧
      (s' ∈ x'.dependents ↔ s' ∈ x.dependents ∨ s' = id ∧ a.map Prod.fst = some ⟨m, j⟩) := by
  cases a with
  | none => exact ⟨x', hx, by simp⟩
  | some p =>
    obtain ⟨⟨vm, slot⟩, role⟩ := p
    obtain rfl : vm = m := ha _ _ rfl
    simp only [List.getElem?_modify] at hx
    cases hl : l[j]? with
    | none => simp [hl] at hx
    | some x =>
      by_cases hs : slot = j
      · subst hs
        obtain rfl : x.register role id = x' := by simpa [hl] using hx
        exact ⟨x, rfl, by simp [Var.mem_dependents_register]⟩
      · obtain rfl : x = x' := by simpa [hl, hs] using hx
        exact ⟨x, rfl, by simp [hs]⟩

/-- The code `c'` is `c` with the statement `s` at its end and the call sites `new`. -/
structure Extends (m : MethodId) (s : Stmt) (new : List CallSite) (c c' : Code) : Prop where
  this_eq : c'.this = c.this
  params_eq : c'.params = c.params
  returns_eq : c'.returns = c.returns
  stmts_eq : c'.stmts = c.stmts ++ [⟨s, c.body.length, false⟩]
  body_eq : c'.body = c.body ++ [⟨m, c.stmts.length⟩]
  sites_eq : c'.sites = c.sites ++ new
  vars_eq : c'.vars = match c'.anchor? s with
    | some (v, role) => c.vars.modify v.slot (·.register role ⟨m, c.stmts.length⟩)
    | none => c.vars

theorem Extends.length_vars {s : Stmt} {new : List CallSite} (e : Extends m s new c c') :
    c'.vars.length = c.vars.length := by
  rw [e.vars_eq]
  split <;> simp

theorem Extends.site {s : Stmt} {new : List CallSite} (e : Extends m s new c c') (j : Nat)
    (t : CallSite) (ht : c.sites[j]? = some t) : c'.sites[j]? = some t := by
  rw [e.sites_eq, List.getElem?_append_left (List.getElem?_eq_some_iff.1 ht).1]
  exact ht

theorem Extends.wellFormed {s : Stmt} {new : List CallSite} (e : Extends m s new c c')
    (h : c.WellFormed m) (hs : c'.Fits m c.stmts.length s)
    (hnew : ∀ (j : Nat) t, new[j]? = some t → c.FitsSite m t ∧
      t.call = some ⟨m, c.stmts.length⟩ ∧ ∃ lhs, s = .call ⟨m, c.sites.length + j⟩ lhs) :
    c'.WellFormed m := by
  have hlen := e.length_vars
  have hle : c.vars.length ≤ c'.vars.length := Nat.le_of_eq hlen.symm
  have hbody : c.body.length = c.stmts.length := by simp [h.body_eq]
  have hsite : ∀ (j : Nat) t, c'.sites[j]? = some t → c'.FitsSite m t := by
    intro j t ht
    rw [e.sites_eq, List.getElem?_append] at ht
    split at ht
    · exact (h.site_fits j t ht).mono hle
    · exact (hnew _ t ht).1.mono hle
  have hbase : ∀ v, c'.base? s = some v → v.method = m := fun v hv =>
    (hs.hasVar_base hsite hv).1
  refine ⟨?_, ?_, ?_, ?_, ?_, ?_, hsite, ?_, ?_⟩
  · rw [e.this_eq]
    exact fun v hv => (h.this_has v hv).mono hle
  · rw [e.params_eq]
    exact fun v hv => (h.params_have v hv).mono hle
  · rw [e.returns_eq]
    exact fun v hv => (h.returns_have v hv).mono hle
  · rw [e.body_eq, e.stmts_eq, h.body_eq, List.length_append, List.length_singleton,
      List.range_succ, List.map_append, List.map_singleton]
  · intro i t ht
    rw [e.stmts_eq, List.getElem?_append] at ht
    split at ht
    · exact h.index_eq i t ht
    · rw [List.getElem?_singleton] at ht
      split at ht
      · cases ht
        exact ⟨by simp only; omega, rfl⟩
      · cases ht
  · intro i t ht
    rw [e.stmts_eq, List.getElem?_append] at ht
    split at ht
    · exact (h.fits i t ht).mono hle e.site
    · rw [List.getElem?_singleton] at ht
      split at ht
      · cases ht
        rw [show i = c.stmts.length by omega]
        exact hs
      · cases ht
  · intro j t ht
    rw [e.sites_eq, List.getElem?_append] at ht
    split at ht
    · obtain ⟨i, lhs, hc, hi⟩ := h.site_call j t ht
      refine ⟨i, lhs, hc, ?_⟩
      obtain ⟨t', ht', -⟩ := Option.map_eq_some_iff.1 hi
      rw [e.stmts_eq, List.getElem?_append_left (List.getElem?_eq_some_iff.1 ht').1]
      exact hi
    · rename_i hj
      obtain ⟨-, hc, lhs, rfl⟩ := hnew _ t ht
      refine ⟨_, lhs, hc, ?_⟩
      rw [e.stmts_eq]
      simp only [List.getElem?_concat_length, Option.map_some]
      congr
      omega
  · intro j x' hx' s'
    rw [e.vars_eq] at hx'
    obtain ⟨x, hx, hiff⟩ := mem_dependents_modify (m := m) s' (fun v role hv =>
      hbase v (by rw [base?, hv]; rfl)) hx'
    rw [hiff, h.dependents j x hx s', e.stmts_eq]
    -- an old statement depends on what it depended on, and the new one on its own base
    have hold : ∀ (i : Nat) t, c.stmts[i]? = some t → c'.base? t.stmt = c.base? t.stmt :=
      fun i t ht => (h.fits i t ht).base?_eq e.site
    constructor
    · rintro (⟨hm, t, ht, hb⟩ | ⟨rfl, hb⟩)
      · refine ⟨hm, t, ?_, (hold _ t ht).trans hb⟩
        rw [List.getElem?_append_left (List.getElem?_eq_some_iff.1 ht).1]
        exact ht
      · exact ⟨rfl, _, List.getElem?_concat_length, hb⟩
    · rintro ⟨hm, t, ht, hb⟩
      rw [List.getElem?_append] at ht
      split at ht
      · exact .inl ⟨hm, t, ht, (hold _ t ht).symm.trans hb⟩
      · rw [List.getElem?_singleton] at ht
        split at ht
        · cases ht
          refine .inr ⟨?_, hb⟩
          cases s'
          simp only [StmtId.mk.injEq] at *
          exact ⟨hm, by omega⟩
        · cases ht

theorem extends_addStmt {s : Stmt} (hcall : ∀ site lhs, s ≠ .call site lhs) (c : Code) :
    Extends m s [] c (c.addStmt m s) := by
  obtain ⟨hstmts, hbody, hthis, hparams, hreturns, -⟩ := c.rest_addStmt m s
  have hsites : (c.addStmt m s).sites = c.sites := by
    rw [sites_addStmt]
    split
    · exact absurd rfl (hcall _ _)
    · rfl
  have hanchor : (c.addStmt m s).anchor? s = c.anchor? s := by
    cases s with
    | alloc | assign | load | store => rfl
    | call site lhs => exact absurd rfl (hcall site lhs)
  exact ⟨hthis, hparams, hreturns, hstmts, hbody, by rw [hsites, List.append_nil],
    by rw [hanchor, vars_addStmt]⟩

/-- The call site of a new call says what it is given, and has the call as its owner. -/
theorem extends_addCall (c : Code) {t : CallSite} (hnone : t.call = none) (lhs : Option VarId) :
    Extends m (.call ⟨m, c.sites.length⟩ lhs) [{ t with call := some ⟨m, c.stmts.length⟩ }] c
      ((c.pushSite t).addStmt m (.call ⟨m, c.sites.length⟩ lhs)) := by
  obtain ⟨hstmts, hbody, hthis, hparams, hreturns, -⟩ :=
    (c.pushSite t).rest_addStmt m (.call ⟨m, c.sites.length⟩ lhs)
  have hsites := c.sites_addCall m hnone lhs
  have hanchor : ((c.pushSite t).addStmt m (.call ⟨m, c.sites.length⟩ lhs)).anchor?
      (.call ⟨m, c.sites.length⟩ lhs) =
        (c.pushSite t).anchor? (.call ⟨m, c.sites.length⟩ lhs) := by
    simp only [anchor?, receiver?, hsites, List.getElem?_concat_length, Option.bind_some]
    simp only [pushSite, List.getElem?_concat_length, Option.bind_some]
  exact ⟨hthis, hparams, hreturns, hstmts, hbody, hsites, by rw [hanchor, vars_addStmt]; rfl⟩

/-- A statement that is no call can be added when its variables are there. -/
theorem WellFormed.addStmt (h : c.WellFormed m) {s : Stmt} (hs : c.Fits m c.stmts.length s)
    (hcall : ∀ site lhs, s ≠ .call site lhs) : (c.addStmt m s).WellFormed m := by
  have e := c.extends_addStmt (m := m) hcall
  refine e.wellFormed h (hs.mono (Nat.le_of_eq e.length_vars.symm) e.site) ?_
  intro j t ht
  simp at ht

/-- A call can be added together with its call site. -/
theorem WellFormed.addCall (h : c.WellFormed m) {t : CallSite} (ht : c.FitsSite m t)
    (hnone : t.call = none) {lhs : Option VarId} (hl : ∀ v, lhs = some v → c.HasVar m v) :
    ((c.pushSite t).addStmt m (.call ⟨m, c.sites.length⟩ lhs)).WellFormed m := by
  have e := c.extends_addCall (m := m) hnone lhs
  have hle := Nat.le_of_eq e.length_vars.symm
  refine e.wellFormed h ⟨rfl, fun v hv => (hl v hv).mono hle, _,
    by rw [e.sites_eq, List.getElem?_concat_length], rfl⟩ ?_
  intro j t' ht'
  rw [List.getElem?_singleton] at ht'
  split at ht'
  · rename_i hj
    subst hj
    cases ht'
    exact ⟨ht, rfl, lhs, rfl⟩
  · cases ht'

end Code

end PointsTo
