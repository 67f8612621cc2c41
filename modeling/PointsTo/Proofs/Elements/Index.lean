import PointsTo.Proofs.Elements.Notes

/-!
# The index of dependent statements

A variable lists the statements of bodies that depend on it, a method lists the statements of its
body, and a call site knows its owner. All this is kept by the operations that add statements, and
is exactly what the list of all statements says.

* `Elements.Indexed`: the index is complete and exact;
* `Elements.Gains`: what adding a statement does to the tables, and `Elements.Widens`: what adding
  variables and call sites does;
* `Elements.Steps`: each request is made of such steps (`Elements.steps_serve`), as long as it names
  variables that are there;
* `Elements.indexed_of_developsBy`: so the index is exact after any such requests.
-/

namespace PointsTo

open Relation (ReflTransGen)

/-- The statements that depend on a variable in a role. -/
def Var.notes (x : Var) : Role → List StmtId
  | .load => x.loads
  | .store => x.stores
  | .call => x.calls

theorem Var.notes_register (x : Var) (role role' : Role) (s : StmtId) :
    (x.register role s).notes role' = x.notes role' ++ if role' = role then [s] else [] := by
  cases role <;> cases role' <;> simp [register, notes]

theorem Var.notes_eq_nil {x : Var} (h : x.dependents = []) (role : Role) : x.notes role = [] := by
  simp only [dependents, List.append_eq_nil_iff] at h
  obtain ⟨⟨hloads, hstores⟩, hcalls⟩ := h
  cases role
  · exact hloads
  · exact hstores
  · exact hcalls

/-- The statement is a call on the call site. -/
def Stmt.callsOn (id : SiteId) : Stmt → Bool
  | .call site _ => site = id
  | _ => false

/-- The code `c'` is `c` with further variables and call sites, which are new. -/
structure Code.Widens (c c' : Code) : Prop where
  stmts_eq : c'.stmts = c.stmts
  body_eq : c'.body = c.body
  sites : ∃ new, c'.sites = c.sites ++ new ∧ ∀ t ∈ new, t.call = none
  vars : ∃ new, c'.vars = c.vars ++ new ∧ ∀ x ∈ new, x.dependents = []

namespace Code.Widens

variable {c c₁ : Code}

theorem of_eq (hstmts : c₁.stmts = c.stmts) (hbody : c₁.body = c.body)
    (hsites : c₁.sites = c.sites) (hvars : c₁.vars = c.vars) : c.Widens c₁ :=
  ⟨hstmts, hbody, ⟨[], by simp [hsites]⟩, ⟨[], by simp [hvars]⟩⟩

theorem refl (c : Code) : c.Widens c := .of_eq rfl rfl rfl rfl

theorem pushVar {x : Var} (hx : x.dependents = []) : c.Widens (c.pushVar x) :=
  ⟨rfl, rfl, ⟨[], by simp [Code.pushVar]⟩, [x], rfl, by simpa using hx⟩

theorem pushSite {t : CallSite} (ht : t.call = none) : c.Widens (c.pushSite t) :=
  ⟨rfl, rfl, ⟨[t], rfl, by simpa using ht⟩, [], by simp [Code.pushSite]⟩

end Code.Widens

namespace Elements

/-- The statement depends on the variable: it loads or stores a field of its objects, or it is a
call with this receiver. -/
def uses (e : Elements) (v : VarId) : Role → Stmt → Bool
  | .load, .load _ base _ => base = v
  | .store, .store base _ _ => base = v
  | .call, .call site _ => (e.site site).receiver = some v
  | _, _ => false

/-- The index is complete and exact. -/
structure Indexed (e : Elements) : Prop where
  /-- Every statement is listed once, in order of creation. -/
  nodup : e.stmts.Nodup
  mem_iff : ∀ s, s ∈ e.stmts ↔ (e.stmt? s).isSome = true
  /-- A variable lists the statements of bodies that depend on it. -/
  notes : ∀ v, e.HasVar v → ∀ role, (e.var v).notes role =
    e.stmts.filter fun s => !(e.stmt s).synthetic && e.uses v role (e.stmt s).stmt
  /-- A method lists the statements of its body. -/
  body : ∀ m, (e.code m).body = e.stmts.filter fun s => s.method = m && !(e.stmt s).synthetic
  /-- The index of a statement of a body is its position there. -/
  index : ∀ m (k : Nat) s, (e.code m).body[k]? = some s → (e.stmt s).index = k
  /-- The first call on a call site owns it. -/
  owner : ∀ id t, e.site? id = some t →
    t.call = e.stmts.find? fun s => (e.stmt s).stmt.callsOn id
  /-- Calls are on call sites that are there. -/
  sited : ∀ s ∈ e.stmts, e.admits (e.stmt s).stmt = true
  /-- What statements of bodies depend on is there. -/
  anchored : ∀ s ∈ e.stmts, (e.stmt s).synthetic = false →
    ∀ v role, e.uses v role (e.stmt s).stmt = true → e.HasVar v

/-! ### Steps -/

/-- The tables `e'` are `e` with the statement `x` in its place, named `s`. -/
structure Gains (e : Elements) (s : StmtId) (x : PlacedStmt) (e' : Elements) : Prop where
  stmts_eq : e'.stmts = e.stmts ++ [s]
  fresh : e.stmt? s = none
  stmt?_eq : ∀ s', e'.stmt? s' = if s' = s then some x else e.stmt? s'
  body_eq : ∀ m, (e'.code m).body =
    (e.code m).body ++ if s.method = m && !x.synthetic then [s] else []
  index_eq : x.index = (e.code s.method).nextIndex x.synthetic
  site?_eq : ∀ id, e'.site? id = (e.site? id).map fun t =>
    if x.stmt.callsOn id then { t with call := t.call <|> some s } else t
  hasVar_iff : ∀ v, e'.HasVar v ↔ e.HasVar v
  notes_eq : ∀ v, e.HasVar v → ∀ role, (e'.var v).notes role =
    (e.var v).notes role ++ if !x.synthetic && e.uses v role x.stmt then [s] else []
  admitted : e.admits x.stmt = true
  anchored : x.synthetic = false → ∀ v role, e.uses v role x.stmt = true → e.HasVar v

/-- The tables `e'` have the statements of `e`, and further variables and call sites that no
statement is noted with. -/
structure Widens (e e' : Elements) : Prop where
  stmts_eq : e'.stmts = e.stmts
  stmt?_eq : ∀ s, e'.stmt? s = e.stmt? s
  body_eq : ∀ m, (e'.code m).body = (e.code m).body
  site? : ∀ id t, e.site? id = some t → e'.site? id = some t
  site?_new : ∀ id t, e.site? id = none → e'.site? id = some t → t.call = none
  hasVar : ∀ v, e.HasVar v → e'.HasVar v
  notes_eq : ∀ v, e.HasVar v → ∀ role, (e'.var v).notes role = (e.var v).notes role
  notes_new : ∀ v, ¬ e.HasVar v → e'.HasVar v → ∀ role, (e'.var v).notes role = []

/-- One of the steps that requests are made of. -/
inductive Step (e : Elements) : Elements → Prop
  | widen {e' : Elements} (h : e.Widens e') : Step e e'
  | gain {e' : Elements} {s : StmtId} {x : PlacedStmt} (h : e.Gains s x e') : Step e e'

/-- The tables `e'` come from `e` by steps. -/
abbrev Steps : Elements → Elements → Prop := ReflTransGen Step

variable {e e₁ e₂ : Elements} {m : MethodId} {s : StmtId} {x : PlacedStmt} {st : Stmt} {v : VarId}
  {role : Role} {id : SiteId}

/-- What a statement depends on is a matter of the receivers of call sites. -/
theorem uses_congr (h : (e₁.site id).receiver = (e.site id).receiver) (lhs : Option VarId) :
    e₁.uses v role (.call id lhs) = e.uses v role (.call id lhs) := by
  cases role <;> simp only [uses, h]

theorem uses_iff : e.uses v role st = true ↔ e.anchor? st = some (v, role) := by
  cases st with
  | alloc | assign | load | store => cases role <;> simp [uses, anchor?]
  | call id lhs =>
    simp only [anchor?, Option.map_eq_some_iff, Prod.mk.injEq]
    cases role <;> simp [uses]

/-! ### A further statement -/

namespace Gains

theorem uses_eq (h : e.Gains s x e₁) (v : VarId) (role : Role) (st : Stmt) :
    e₁.uses v role st = e.uses v role st := by
  cases st with
  | alloc | assign | load | store => cases role <;> rfl
  | call id lhs =>
    refine uses_congr ?_ lhs
    have hsite := h.site?_eq id
    cases ht : e.site? id with
    | none =>
      rw [ht, Option.map_none] at hsite
      simp only [site, List.getD_eq_getElem?_getD]
      rw [show (e₁.code id.method).sites[id.slot]? = none from hsite,
        show (e.code id.method).sites[id.slot]? = none from ht]
    | some t =>
      rw [ht, Option.map_some] at hsite
      rw [site_of_site? ht, site_of_site? hsite]
      split <;> rfl

theorem not_mem (h : e.Gains s x e₁) (he : e.Indexed) : s ∉ e.stmts := by
  rw [he.mem_iff, h.fresh]
  exact Bool.false_ne_true

theorem stmt_new (h : e.Gains s x e₁) : e₁.stmt s = x :=
  stmt_of_stmt? (by rw [h.stmt?_eq, if_pos rfl])

theorem stmt_old (h : e.Gains s x e₁) (he : e.Indexed) {s' : StmtId} (hs : s' ∈ e.stmts) :
    e₁.stmt s' = e.stmt s' := by
  have hne : s' ≠ s := fun heq => h.not_mem he (heq ▸ hs)
  rw [stmt, h.stmt?_eq, if_neg hne]
  rfl

/-- A list of statements that is told by what they say. -/
theorem filter_eq (h : e.Gains s x e₁) (he : e.Indexed) (p : StmtId → PlacedStmt → Bool) :
    (e₁.stmts.filter fun s' => p s' (e₁.stmt s')) =
      (e.stmts.filter fun s' => p s' (e.stmt s')) ++ if p s x then [s] else [] := by
  rw [h.stmts_eq, List.filter_append, List.filter_cons, List.filter_nil, h.stmt_new]
  congr 1
  exact List.filter_congr fun s' hs' => by rw [h.stmt_old he hs']

theorem admits_mono (h : e.Gains s x e₁) (hst : e.admits st = true) : e₁.admits st = true := by
  cases st with
  | alloc | assign | load | store => rfl
  | call id lhs =>
    simp only [admits, h.site?_eq, Option.isSome_map]
    exact hst

theorem indexed (h : e.Gains s x e₁) (he : e.Indexed) : e₁.Indexed where
  nodup := by
    rw [h.stmts_eq, List.nodup_append]
    refine ⟨he.nodup, by simp, ?_⟩
    rintro a ha b hb rfl
    exact h.not_mem he (List.mem_singleton.1 hb ▸ ha)
  mem_iff s' := by
    rw [h.stmts_eq, List.mem_append, List.mem_singleton, he.mem_iff, h.stmt?_eq]
    split <;> simp_all
  notes v hv role := by
    rw [h.hasVar_iff] at hv
    rw [h.notes_eq v hv role, he.notes v hv role]
    simp only [h.uses_eq]
    exact (h.filter_eq he fun _ y => !y.synthetic && e.uses v role y.stmt).symm
  body m := by
    rw [h.body_eq, he.body]
    exact (h.filter_eq he fun s' y => s'.method = m && !y.synthetic).symm
  index m k s' hs' := by
    rw [h.body_eq, List.getElem?_append] at hs'
    split at hs' <;> rename_i hk
    · have hmem : s' ∈ e.stmts := by
        have hbody := List.mem_of_getElem? hs'
        rw [he.body] at hbody
        exact (List.mem_filter.1 hbody).1
      rw [h.stmt_old he hmem]
      exact he.index m k s' hs'
    · split at hs' <;> rename_i hnew
      · simp only [Bool.and_eq_true, decide_eq_true_eq, Bool.not_eq_true'] at hnew
        obtain ⟨rfl, hsyn⟩ := hnew
        rw [List.getElem?_singleton] at hs'
        split at hs' <;> cases hs'
        rw [h.stmt_new, h.index_eq, hsyn]
        simp only [Code.nextIndex, Bool.false_eq_true, if_false]
        omega
      · cases hs'
  owner id t ht := by
    rw [h.site?_eq] at ht
    obtain ⟨t₀, ht₀, rfl⟩ := Option.map_eq_some_iff.1 ht
    rw [← List.head?_filter, h.filter_eq he fun _ y => y.stmt.callsOn id, List.head?_append,
      List.head?_filter, ← he.owner id t₀ ht₀]
    split <;> cases t₀.call <;> rfl
  sited s' hs' := by
    rw [h.stmts_eq] at hs'
    rcases List.mem_append.1 hs' with hs' | hs'
    · rw [h.stmt_old he hs']
      exact h.admits_mono (he.sited s' hs')
    · rw [List.mem_singleton.1 hs', h.stmt_new]
      exact h.admits_mono h.admitted
  anchored s' hs' hsyn v role huses := by
    rw [h.hasVar_iff]
    rw [h.uses_eq] at huses
    rw [h.stmts_eq] at hs'
    rcases List.mem_append.1 hs' with hs' | hs'
    · rw [h.stmt_old he hs'] at hsyn huses
      exact he.anchored s' hs' hsyn v role huses
    · rw [List.mem_singleton.1 hs', h.stmt_new] at hsyn huses
      exact h.anchored hsyn v role huses

end Gains

/-! ### Further variables and call sites -/

namespace Widens

theorem of_code (hstmts : e₁.stmts = e.stmts) (h : ∀ m, (e.code m).Widens (e₁.code m)) :
    e.Widens e₁ where
  stmts_eq := hstmts
  stmt?_eq s := by simp only [stmt?, (h s.method).stmts_eq]
  body_eq m := (h m).body_eq
  site? id t ht := by
    obtain ⟨new, hsites, -⟩ := (h id.method).sites
    exact Code.getElem?_of_isPrefix ⟨new, hsites.symm⟩ ht
  site?_new id t hnone ht := by
    obtain ⟨new, hsites, hnew⟩ := (h id.method).sites
    have hslot := List.getElem?_eq_none_iff.1 hnone
    rw [Elements.site?, hsites, List.getElem?_append_right hslot] at ht
    exact hnew t (List.mem_of_getElem? ht)
  hasVar v hv := by
    obtain ⟨new, hvars, -⟩ := (h v.method).vars
    rw [HasVar, hvars, List.length_append]
    exact Nat.lt_add_right _ hv
  notes_eq v hv role := by
    obtain ⟨new, hvars, -⟩ := (h v.method).vars
    simp only [var, List.getD_eq_getElem?_getD, hvars, List.getElem?_append_left hv]
  notes_new v hno hv role := by
    obtain ⟨new, hvars, hnew⟩ := (h v.method).vars
    rw [var, List.getD_eq_getElem?_getD, hvars, List.getElem?_append_right (Nat.le_of_not_lt hno)]
    cases hx : new[v.slot - (e.code v.method).vars.length]? with
    | none => cases role <;> rfl
    | some x => exact Var.notes_eq_nil (hnew x (List.mem_of_getElem? hx)) role

theorem of_code_eq (hstmts : e₁.stmts = e.stmts) (hcode : ∀ m, e₁.code m = e.code m) :
    e.Widens e₁ :=
  .of_code hstmts fun m => hcode m ▸ .refl _

theorem modifyCode {f : Code → Code} (h : ∀ c : Code, c.Widens (f c)) :
    e.Widens (e.modifyCode m f) := by
  refine .of_code rfl fun m' => ?_
  rcases e.code_modifyCode_cases m f m' with hc | ⟨-, hc⟩ <;> rw [hc]
  · exact .refl _
  · exact h _

theorem stmt_eq (h : e.Widens e₁) (s : StmtId) : e₁.stmt s = e.stmt s := by
  rw [stmt, h.stmt?_eq]
  rfl

/-- Statements depend on what they depended on, since their call sites were there. -/
theorem uses_eq (h : e.Widens e₁) (hst : e.admits st = true) (v : VarId) (role : Role) :
    e₁.uses v role st = e.uses v role st := by
  cases st with
  | alloc | assign | load | store => cases role <;> rfl
  | call id lhs =>
    obtain ⟨t, ht⟩ := Option.isSome_iff_exists.1 hst
    refine uses_congr ?_ lhs
    rw [site_of_site? ht, site_of_site? (h.site? id t ht)]

theorem admits_mono (h : e.Widens e₁) (hst : e.admits st = true) : e₁.admits st = true := by
  cases st with
  | alloc | assign | load | store => rfl
  | call id lhs =>
    obtain ⟨t, ht⟩ := Option.isSome_iff_exists.1 hst
    simp [admits, h.site? id t ht]

theorem indexed (h : e.Widens e₁) (he : e.Indexed) : e₁.Indexed where
  nodup := h.stmts_eq ▸ he.nodup
  mem_iff s := by
    rw [h.stmts_eq, h.stmt?_eq]
    exact he.mem_iff s
  notes v hv role := by
    have hsame : (e₁.stmts.filter fun s =>
        !(e₁.stmt s).synthetic && e₁.uses v role (e₁.stmt s).stmt) =
          e.stmts.filter fun s => !(e.stmt s).synthetic && e.uses v role (e.stmt s).stmt := by
      rw [h.stmts_eq]
      refine List.filter_congr fun s hs => ?_
      rw [h.stmt_eq, h.uses_eq (he.sited s hs)]
    rw [hsame]
    by_cases hold : e.HasVar v
    · rw [h.notes_eq v hold, he.notes v hold]
    · -- no statement depends on a variable that was not there
      rw [h.notes_new v hold hv, eq_comm, List.filter_eq_nil_iff]
      intro s hs huses
      simp only [Bool.and_eq_true, Bool.not_eq_true'] at huses
      exact hold (he.anchored s hs huses.1 v role huses.2)
  body m := by
    rw [h.body_eq, he.body, h.stmts_eq]
    simp only [h.stmt_eq]
  index m k s hs := by
    rw [h.body_eq] at hs
    rw [h.stmt_eq]
    exact he.index m k s hs
  owner id t ht := by
    simp only [h.stmts_eq, h.stmt_eq]
    cases hsite : e.site? id with
    | some t₀ =>
      obtain rfl : t₀ = t := Option.some.inj ((h.site? id t₀ hsite).symm.trans ht)
      exact he.owner id t₀ hsite
    | none =>
      -- nor is there a call on a call site that was not there
      rw [h.site?_new id t hsite ht, eq_comm, List.find?_eq_none]
      intro s hs hcall
      have hsited := he.sited s hs
      cases hst : (e.stmt s).stmt with
      | alloc | assign | load | store =>
        rw [hst] at hcall
        cases hcall
      | call site lhs =>
        rw [hst] at hcall hsited
        rw [admits, of_decide_eq_true hcall, hsite] at hsited
        cases hsited
  sited s hs := by
    rw [h.stmts_eq] at hs
    rw [h.stmt_eq]
    exact h.admits_mono (he.sited s hs)
  anchored s hs hsyn v role huses := by
    rw [h.stmts_eq] at hs
    rw [h.stmt_eq] at hsyn huses
    rw [h.uses_eq (he.sited s hs)] at huses
    exact h.hasVar v (he.anchored s hs hsyn v role huses)

end Widens

theorem Steps.indexed (h : e.Steps e₁) (he : e.Indexed) : e₁.Indexed := by
  induction h with
  | refl => exact he
  | tail _ h ih =>
    cases h with
    | widen h => exact h.indexed ih
    | gain h => exact h.indexed ih

/-! ### Adding a statement -/

theorem vars_code_own (e : Elements) (st : Stmt) (s : StmtId) (m : MethodId) :
    ((e.own st s).code m).vars = (e.code m).vars := by
  cases st with
  | alloc | assign | load | store => rfl
  | call site lhs =>
    rcases e.code_modifyCode_cases site.method (·.bindSite site.slot s) m with hc | ⟨-, hc⟩
    · exact congrArg Code.vars hc
    · exact (congrArg Code.vars hc).trans rfl

/-- A note is made with the variable that the statement depends on. -/
theorem notes_note (e : Elements) (st : Stmt) (s : StmtId) (hv : e.HasVar v) (role : Role) :
    ((e.note st s).var v).notes role =
      (e.var v).notes role ++ if e.uses v role st then [s] else [] := by
  simp only [uses_iff, note]
  cases hanchor : e.anchor? st with
  | none => simp
  | some a =>
    obtain ⟨⟨method, slot⟩, role'⟩ := a
    by_cases hm : v.method = method
    · subst hm
      have hx := List.getElem?_eq_getElem hv
      simp only [var, List.getD_eq_getElem?_getD, code_modifyCode e hv.mem_keys, if_true,
        Code.register, List.getElem?_modify, hx]
      by_cases hslot : slot = v.slot
      · subst hslot
        simp [Var.notes_register, eq_comm]
      · have hne : (⟨v.method, slot⟩ : VarId) ≠ v := fun heq => hslot (congrArg VarId.slot heq)
        simp [hslot, hne]
    · have hne : (⟨method, slot⟩ : VarId) ≠ v := fun heq => hm (congrArg VarId.method heq).symm
      rcases e.code_modifyCode_cases method (·.register slot role' s) v.method with hc | ⟨heq, -⟩
      · simp [var, hc, hne]
      · exact absurd heq hm

section

variable (synthetic : Bool)

theorem body_noted (e : Elements) (m m' : MethodId) (st : Stmt) :
    ((e.noted m st synthetic).code m').body = (e.code m').body := by
  have htouches : Code.Touches m' False (e.code m') ((e.noted m st synthetic).code m') :=
    touches_noted synthetic
  exact htouches.body_eq id

theorem hasVar_noted (e : Elements) (m : MethodId) (st : Stmt) (v : VarId) :
    (e.noted m st synthetic).HasVar v ↔ e.HasVar v := by
  have hnote : ∀ (e : Elements) (s : StmtId), (e.note st s).HasVar v ↔ e.HasVar v := by
    intro e s
    unfold note
    split
    · rename_i w role _
      rcases e.code_modifyCode_cases w.method (·.register w.slot role s) v.method with hc | ⟨-, hc⟩
      · rw [HasVar, hc]
        rfl
      · rw [HasVar, hc, Code.register, List.length_modify]
        rfl
    · exact Iff.rfl
  have hown : (e.own st (e.nextStmt m)).HasVar v ↔ e.HasVar v := by
    rw [HasVar, vars_code_own]
    rfl
  unfold noted
  split
  · exact hown
  · exact (hnote _ _).trans hown

/-- Before a statement is put in its place, it is noted unless it is synthetic. -/
theorem notes_noted (hst : e.admits st = true) (hv : e.HasVar v) (role : Role) :
    ((e.noted m st synthetic).var v).notes role = (e.var v).notes role ++
      if !synthetic && e.uses v role st then [e.nextStmt m] else [] := by
  have hown : (e.own st (e.nextStmt m)).var v = e.var v := by
    simp only [var, vars_code_own]
  cases synthetic with
  | true => simp [noted, hown]
  | false =>
    have hv' : (e.own st (e.nextStmt m)).HasVar v := by rwa [HasVar, vars_code_own]
    have huses : (e.own st (e.nextStmt m)).uses v role st = e.uses v role st := by
      rw [Bool.eq_iff_iff, uses_iff, uses_iff, (e.grows_own st _).anchor?_eq hst]
    simp only [noted, Bool.false_eq_true, if_false, notes_note _ st _ hv', hown, huses,
      Bool.not_false, Bool.true_and]

/-- Adding a statement to a method that was entered. -/
theorem gains_place (hm : m ∈ e.methods.keys) (hst : e.admits st = true)
    (hvar : synthetic = false → ∀ v role, e.uses v role st = true → e.HasVar v) :
    e.Gains (e.nextStmt m) ⟨st, (e.code m).nextIndex synthetic, synthetic⟩
      (e.place m st synthetic) := by
  have hkeys : m ∈ (e.noted m st synthetic).methods.keys := e.keys_noted m st synthetic ▸ hm
  have hcode : ∀ m', (e.place m st synthetic).code m' =
      if m' = m then ((e.noted m st synthetic).code m).pushStmt m st synthetic
      else (e.noted m st synthetic).code m' := fun m' => by
    rw [code_place, code_modifyCode _ hkeys]
  have hstmts := e.code_noted m st synthetic
  have hbody := body_noted synthetic e m
  have hvars : ∀ m', ((e.place m st synthetic).code m').vars =
      ((e.noted m st synthetic).code m').vars := by
    intro m'
    rw [hcode]
    split <;> rename_i heq
    · rw [heq]
      rfl
    · rfl
  refine
    { stmts_eq := (e.place_frame m st synthetic).2
      fresh := List.getElem?_eq_none (Nat.le_refl _)
      stmt?_eq := ?_
      body_eq := ?_
      index_eq := rfl
      site?_eq := ?_
      hasVar_iff := ?_
      notes_eq := ?_
      admitted := hst
      anchored := hvar }
  · intro s
    rw [stmt?, hcode]
    split <;> rename_i heq
    · simp only [Code.pushStmt, Code.nextIndex, hbody, (hstmts m).1, nextStmt, stmt?]
      obtain ⟨method, slot⟩ := s
      obtain rfl : method = m := heq
      simp only [StmtId.mk.injEq, true_and, List.getElem?_append, List.getElem?_singleton]
      split <;> rename_i hlt
      · rw [if_neg (by omega)]
      · by_cases hslot : slot = (e.code method).stmts.length
        · simp [hslot]
        · rw [if_neg (by omega), if_neg hslot, List.getElem?_eq_none (Nat.le_of_not_lt hlt)]
    · have hne : s ≠ e.nextStmt m := fun h => heq (congrArg StmtId.method h)
      rw [(hstmts _).1, if_neg hne]
      rfl
  · intro m'
    rw [hcode]
    split <;> rename_i heq
    · subst heq
      cases synthetic <;> simp [Code.pushStmt, hbody, (hstmts m').1, nextStmt]
    · simp [hbody, nextStmt, Ne.symm heq]
  · intro id
    rw [site?_place]
    cases st with
    | alloc | assign | load | store => simp [own, Stmt.callsOn]
    | call site lhs =>
      rw [site?_own_call]
      simp only [Stmt.callsOn, decide_eq_true_eq, eq_comm (a := site)]
  · intro v
    rw [HasVar, hvars]
    exact hasVar_noted synthetic e m st v
  · intro v hv role
    rw [var, hvars]
    exact notes_noted synthetic hst hv role

end

theorem steps_addStmt {synthetic : Bool}
    (hvar : synthetic = false → ∀ v role, e.anchor? st = some (v, role) → e.HasVar v) :
    e.Steps (e.addStmt m st synthetic).2 := by
  have hframe := foldl_mention_frame st.mentions (e.addMethod m)
  set e₁ := st.mentions.foldl mention (e.addMethod m) with he₁
  have hcode : ∀ m', e₁.code m' = e.code m' :=
    fun m' => (hframe.2.2.1 m').trans (e.code_addMethod m m')
  have hstmts : e₁.stmts = e.stmts := (stmts_foldl_mention _ _).trans (e.stmts_addMethod m)
  have hmention : e.Step e₁ := .widen (.of_code_eq hstmts hcode)
  simp only [addStmt, ← he₁]
  split <;> rename_i hst
  · refine .tail (.single hmention) (.gain (gains_place synthetic ?_ hst fun hsyn v role hv => ?_))
    · exact hframe.2.2.2 m (e.mem_keys_addMethod m)
    · have hanchor : e₁.anchor? st = e.anchor? st := by
        cases st <;> simp only [anchor?, site, hcode]
      rw [HasVar, hcode]
      exact hvar hsyn v role (hanchor.symm.trans (uses_iff.1 hv))
  · exact .single hmention

/-! ### Working on the code of one method -/

/-- The tables `e` with other code of `m`, which has further statements. -/
def patched (e : Elements) (m : MethodId) (c : Code) : Elements :=
  { e.modifyCode m fun _ => c with
    stmts := e.stmts ++ (slots (e.code m).stmts.length c.stmts.length).map (StmtId.mk m) }

theorem code_patched (hm : m ∈ e.methods.keys) (c : Code) (m' : MethodId) :
    (e.patched m c).code m' = if m' = m then c else e.code m' :=
  code_modifyCode e hm (fun _ => c) m'

/-- The statements of `c` are those of `m` and further ones, and the tables with `c` come from `e`
by steps. -/
def Drafts (e : Elements) (m : MethodId) (c : Code) : Prop :=
  (e.code m).stmts.length ≤ c.stmts.length ∧ e.Steps (e.patched m c)

theorem slots_succ {lo hi : Nat} (h : lo ≤ hi) : slots lo (hi + 1) = slots lo hi ++ [hi] := by
  rw [slots, slots, Nat.succ_sub h, List.range_succ, List.map_append]
  simp only [List.map_cons, List.map_nil]
  congr 2
  omega

theorem Drafts.widen {c c₁ : Code} (h : e.Drafts m c) (hm : m ∈ e.methods.keys)
    (hc : c.Widens c₁) : e.Drafts m c₁ := by
  have hlen : c₁.stmts.length = c.stmts.length := congrArg _ hc.stmts_eq
  refine ⟨hlen ▸ h.1, h.2.tail (.widen (.of_code ?_ fun m' => ?_))⟩
  · simp only [patched, hlen]
  · rw [code_patched hm, code_patched hm]
    split
    · exact hc
    · exact .refl _

/-- What a statement depends on is told by the code of the method that its call site belongs to. -/
theorem anchor?_eq_code (hsite : ∀ id lhs, st = .call id lhs → id.method = m) :
    e.anchor? st = (e.code m).anchor? st := by
  cases st with
  | alloc | assign | load | store => rfl
  | call id lhs =>
    obtain rfl := hsite id lhs rfl
    simp only [anchor?, Code.anchor?, Code.receiver?, site, List.getD_eq_getElem?_getD]
    cases (e.code id.method).sites[id.slot]? <;> rfl

/-- A statement whose parts belong to one method only touches the code of this method. -/
theorem code_place_self (hm : m ∈ e.methods.keys) (hst : e.admits st = true)
    (hsite : ∀ id lhs, st = .call id lhs → id.method = m)
    (hvar : ∀ v role, e.anchor? st = some (v, role) → v.method = m) (m' : MethodId) :
    (e.place m st false).code m' = if m' = m then (e.code m).addStmt m st else e.code m' := by
  have hkeys : m ∈ (e.noted m st false).methods.keys := e.keys_noted m st false ▸ hm
  -- first the call site gets an owner, then the statement is noted
  obtain ⟨c, howned, hadd⟩ : ∃ c,
      (∀ m', (e.own st (e.nextStmt m)).code m' = if m' = m then c else e.code m') ∧
      (e.code m).addStmt m st = ((c.anchor? st).elim c fun a =>
        c.register a.1.slot a.2 (e.nextStmt m)).pushStmt m st false := by
    cases st with
    | alloc | assign | load | store =>
      refine ⟨e.code m, fun m' => ?_, rfl⟩
      split <;> rename_i heq
      · rw [heq]
        rfl
      · rfl
    | call id lhs =>
      obtain rfl := hsite id lhs rfl
      refine ⟨_, code_modifyCode e hm _, ?_⟩
      simp only [Code.addStmt, nextStmt]
      cases Code.anchor? _ (.call id lhs) <;> rfl
  have hanchor : (e.own st (e.nextStmt m)).anchor? st = c.anchor? st := by
    rw [anchor?_eq_code hsite, howned, if_pos rfl]
  have hkeysOwned : m ∈ (e.own st (e.nextStmt m)).methods.keys := by
    have hsame := e.keys_noted m st true
    rw [noted, if_pos rfl] at hsame
    exact hsame ▸ hm
  rw [code_place, code_modifyCode _ hkeys, hadd]
  simp only [noted, Bool.false_eq_true, if_false, note, hanchor]
  cases hc : c.anchor? st with
  | none =>
    simp only [howned, Option.elim_none, if_true]
    split <;> rfl
  | some a =>
    obtain ⟨v, role⟩ := a
    obtain rfl : v.method = m := hvar v role
      (((e.grows_own st _).anchor?_eq hst).symm.trans (hanchor.trans hc))
    simp only [code_modifyCode _ hkeysOwned, howned, if_true, Option.elim_some]
    split <;> rfl

/-- A statement made of variables and a call site of the method. -/
theorem Drafts.addStmt {c : Code} (h : e.Drafts m c) (hm : m ∈ e.methods.keys)
    (hsite : ∀ id lhs, st = .call id lhs → id.method = m ∧ id.slot < c.sites.length)
    (hvar : ∀ v role, c.anchor? st = some (v, role) → c.HasVar m v) :
    e.Drafts m (c.addStmt m st) := by
  have hkeys : m ∈ (e.patched m c).methods.keys := by
    have hsame : (e.patched m c).methods.keys = e.methods.keys := Table.keys_modify ..
    exact hsame ▸ hm
  have hcode := code_patched hm c
  have hself : (e.patched m c).code m = c := (hcode m).trans (if_pos rfl)
  have hanchor : (e.patched m c).anchor? st = c.anchor? st := by
    rw [anchor?_eq_code fun id lhs hst => (hsite id lhs hst).1, hself]
  have hst : (e.patched m c).admits st = true := by
    cases st with
    | alloc | assign | load | store => rfl
    | call id lhs =>
      obtain ⟨rfl, hslot⟩ := hsite id lhs rfl
      rw [admits, Elements.site?, hself, List.getElem?_eq_getElem hslot]
      rfl
  have hgains := gains_place false hkeys hst fun _ v role hv => by
    obtain ⟨hmethod, hslot⟩ := hvar v role (hanchor.symm.trans (uses_iff.1 hv))
    rwa [HasVar, hmethod, hself]
  obtain ⟨hstmts, -⟩ := c.rest_addStmt m st
  have hlen : (c.addStmt m st).stmts.length = c.stmts.length + 1 := by
    rw [hstmts, List.length_append, List.length_singleton]
  refine ⟨hlen ▸ Nat.le_succ_of_le h.1, (h.2.tail (.gain hgains)).tail (.widen (.of_code_eq ?_ ?_))⟩
  · rw [hgains.stmts_eq, nextStmt, hself]
    simp only [patched, hlen, slots_succ h.1, List.map_append, List.append_assoc, List.map_cons,
      List.map_nil]
  · intro m'
    rw [code_patched hm, code_place_self hkeys hst (fun id lhs hst => (hsite id lhs hst).1)
      (fun v role hv => (hvar v role (hanchor.symm.trans hv)).1), hself, hcode]
    split <;> rfl

/-- Lowering takes such steps. -/
theorem kept_drafts (hm : m ∈ e.methods.keys) : Lower.Kept m (e.Drafts m) where
  var h hx := h.widen hm (.pushVar hx)
  temp h := h.widen hm (.of_eq rfl rfl rfl rfl)
  stmt h hfits hcall := h.addStmt hm (fun id lhs heq => absurd heq (hcall id lhs))
    fun _ _ => hfits.hasVar_anchor hcall
  call {c t lhs} h ht hnone _ := by
    refine (h.widen hm (.pushSite hnone)).addStmt hm ?_ fun v role hv => ?_
    · rintro id _ ⟨⟩
      exact ⟨rfl, by simp [Code.pushSite]⟩
    · simp only [Code.anchor?, Code.receiver?, Code.pushSite, List.getElem?_concat_length,
        Option.bind_some, Option.map_eq_some_iff, Prod.mk.injEq] at hv
      obtain ⟨w, hw, rfl, -⟩ := hv
      exact ht.1 w hw
  bodySite _ h := h.widen hm (.of_eq rfl rfl rfl rfl)
  this h _ := h.widen hm (.of_eq rfl rfl rfl rfl)
  params h _ := h.widen hm (.of_eq rfl rfl rfl rfl)
  returns h _ := h.widen hm (.of_eq rfl rfl rfl rfl)

theorem steps_draft {α : Type} {x : Drafting α} (e : Elements)
    (h : ∀ e' : Elements, m ∈ e'.methods.keys → ∀ d : Draft, e'.Drafts m d.code →
      e'.Drafts m (x d).2.code) : e.Steps (e.draft m x).2 := by
  set d : Draft := { code := e.code m } with hd
  obtain ⟨-, -, hcode, hkeys⟩ := foldl_mention_frame (x d).2.mentions (e.addMethod m)
  set e₁ := (x d).2.mentions.foldl mention (e.addMethod m) with he₁
  replace hcode : ∀ m', e₁.code m' = e.code m' :=
    fun m' => (hcode m').trans (e.code_addMethod m m')
  have hm : m ∈ e₁.methods.keys := hkeys m (e.mem_keys_addMethod m)
  have hstmts : e₁.stmts = e.stmts := (stmts_foldl_mention _ _).trans (e.stmts_addMethod m)
  have hstart : e₁.Drafts m d.code := by
    refine ⟨Nat.le_of_eq (congrArg _ (congrArg Code.stmts (hcode m))), .single (.widen ?_)⟩
    refine .of_code_eq ?_ fun m' => ?_
    · simp [patched, hcode, slots, hd]
    · rw [code_patched hm]
      split <;> rename_i heq
      · rw [heq, hcode]
      · rfl
  have hmade := h e₁ hm d hstart
  have hmention : e.Step e₁ := .widen (.of_code_eq hstmts hcode)
  refine (ReflTransGen.head hmention hmade.2).tail (.widen (.of_code_eq ?_ fun m' => ?_))
  · rw [stmts_draft, patched, hstmts, hcode]
  · rw [code_draft, code_patched hm, hcode]

theorem steps_newSite (e : Elements) (m : MethodId) (kind : CallKind) (target : MethodId)
    (receiver : Option VarId) (args : List (Option VarId)) :
    e.Steps (e.newSite m kind target receiver args).2 :=
  e.steps_draft fun _ hm _ h => h.widen hm (.pushSite (t := { kind, target, receiver, args }) rfl)

theorem steps_lower (e : Elements) (m : MethodId) : e.Steps (e.lower m).2 := by
  have hadd : e.Steps (e.addMethod m) :=
    .single (.widen (.of_code_eq (e.stmts_addMethod m) (e.code_addMethod m)))
  simp only [lower]
  split
  · exact hadd
  · have hopen : (e.addMethod m).Widens
        ((e.addMethod m).modifyCode m fun c => { c with built := true }) :=
      .modifyCode fun _ => .of_eq rfl rfl rfl rfl
    refine (hadd.tail (.widen hopen)).trans (steps_draft _ fun e' hm d h => ?_)
    exact (Lower.triple_method (kept_drafts hm) _ d h trivial).1.kept

theorem steps_serve {r : Request} (hr : r.Grounded e) : e.Steps (e.serve r).2 := by
  cases r with
  | type t => exact .single (.widen (.of_code_eq rfl fun _ => rfl))
  | method m => exact .single (.widen (.of_code_eq (e.stmts_addMethod m) (e.code_addMethod m)))
  | field f =>
    exact .single (.widen (.of_code_eq (e.stmts_mention (.field f)) (e.code_addField f)))
  | localVar m l decl =>
    refine e.steps_draft fun e' hm d h => ?_
    rw [Lower.localVar_run]
    split
    · split
      · exact h
      · exact (kept_drafts hm).var h rfl
    · exact h
  | newVar m name ty => exact e.steps_draft fun _ hm _ h => (kept_drafts hm).var h rfl
  | temp m base ty =>
    exact e.steps_draft fun _ hm _ h => (kept_drafts hm).var ((kept_drafts hm).temp h) rfl
  | addStmt m st synthetic =>
    refine steps_addStmt fun hsyn => ?_
    subst hsyn
    exact hr
  | newSite m kind target receiver args => exact e.steps_newSite m kind target receiver args
  | addCall m kind target receiver args lhs synthetic =>
    have hsite := e.steps_newSite m kind target receiver args
    have hcall : e.Steps ((e.newSite m kind target receiver args).2.addStmt m
        (.call (e.newSite m kind target receiver args).1 lhs) synthetic).2 := by
      refine hsite.trans (steps_addStmt fun hsyn v role => hasVar_newSite fun w hw => ?_)
      subst hsyn hw
      exact hr
    simp only [serve, addCall]
    split
    · exact hcall
    · exact hcall.tail (.widen (.modifyCode fun _ => .of_eq rfl rfl rfl rfl))
  | lower m => exact e.steps_lower m
  | resolve signature =>
    simp only [serve, resolve]
    split
    · exact .refl
    · split
      · exact .refl
      · exact .single (.widen (.of_code_eq (e.stmts_addMethod _) (e.code_addMethod _)))
  | dispatch t sub =>
    exact .single (.widen (.of_code_eq (e.stmts_dispatch t sub) (e.code_dispatch t sub).2))

theorem indexed_empty (p : Program) : ({ program := p } : Elements).Indexed where
  nodup := .nil
  mem_iff _ := iff_of_false List.not_mem_nil Bool.false_ne_true
  notes _ hv := absurd hv (Nat.not_lt_zero _)
  body _ := rfl
  index _ _ _ h := by cases h
  owner _ _ h := by cases h
  sited := List.forall_mem_nil _
  anchored := List.forall_mem_nil _

/-- The index of the tables of a program is complete and exact, whatever was asked of them, as long
as requests name variables that are there. -/
theorem indexed_of_developsBy {p : Program}
    (h : ({ program := p } : Elements).DevelopsBy (fun e r => r.Grounded e) e) : e.Indexed := by
  induction h with
  | refl => exact indexed_empty p
  | serve _ hr ih => exact (steps_serve hr).indexed ih
  | @tell e' _ level text ih =>
    have htell : e'.Widens (e'.tell level text) := .of_code_eq rfl fun _ => rfl
    exact htell.indexed ih

end Elements

/-- A method that stores an object in a field of itself, and one that does nothing. -/
def Program.knotting : Program where
  classes := [{ name := "java.lang.Object" }, { name := "A", superclass := some ⟨0⟩ }]
  fields := [{ owner := ⟨1⟩, name := "f", ty := .cls ⟨1⟩ }]
  methods := [
    { owner := ⟨1⟩, name := "knot", isStatic := true
      body := some {
        locals := [⟨"x", .cls ⟨1⟩⟩]
        instructions := [.assign (.local ⟨0⟩) (.new ⟨1⟩),
          .assign (.field ⟨0⟩ ⟨0⟩) (.local ⟨0⟩)] } },
    { owner := ⟨1⟩, name := "rest" }]

/-- Requests that name variables and call sites of other methods, and a call that is first made by a
synthetic statement. -/
def Request.loosening : List Request :=
  [.lower ⟨0⟩, .newVar ⟨1⟩ "y" (.cls ⟨1⟩), .addStmt ⟨1⟩ (.load ⟨⟨1⟩, 0⟩ ⟨⟨0⟩, 0⟩ ⟨0⟩) false,
    .newSite ⟨1⟩ .virtual ⟨1⟩ (some ⟨⟨0⟩, 0⟩) [], .addStmt ⟨0⟩ (.call ⟨⟨1⟩, 0⟩ none) true,
    .addStmt ⟨1⟩ (.call ⟨⟨1⟩, 0⟩ none) false,
    .addCall ⟨0⟩ .virtual ⟨1⟩ (some ⟨⟨1⟩, 0⟩) [] none false]

/-- The object is stored and loaded, and the synthetic call owns the call site. -/
theorem Elements.indexed_of_developsBy_knotting :
    let e := Request.loosening.foldl (fun e r => (e.serve r).2) { program := .knotting }
    ({ program := .knotting } : Elements).DevelopsBy (fun e r => r.Grounded e) e ∧ e.Indexed ∧
      (e.var ⟨⟨0⟩, 0⟩).loads = [⟨⟨1⟩, 0⟩] ∧ (e.var ⟨⟨0⟩, 0⟩).stores = [⟨⟨0⟩, 1⟩] ∧
      (e.var ⟨⟨0⟩, 0⟩).calls = [⟨⟨1⟩, 1⟩] ∧ (e.site ⟨⟨1⟩, 0⟩).call = some ⟨⟨0⟩, 2⟩ ∧
      (e.code ⟨0⟩).body = [⟨⟨0⟩, 0⟩, ⟨⟨0⟩, 1⟩, ⟨⟨0⟩, 3⟩] := by
  intro e
  have h : ({ program := .knotting } : Elements).DevelopsBy (fun e r => r.Grounded e) e := by
    refine .serve (.serve (.serve (.serve (.serve (.serve (.serve .refl ?_) ?_) ?_) ?_) ?_) ?_) ?_
    · trivial
    · trivial
    · rintro v role ⟨⟩
      decide +kernel
    · trivial
    · trivial
    · rintro v role ⟨⟩
      decide +kernel
    · show HasVar _ _
      decide +kernel
  exact ⟨h, indexed_of_developsBy h, by decide +kernel, by decide +kernel, by decide +kernel,
    by decide +kernel, by decide +kernel⟩

end PointsTo
