import PointsTo.Proofs.Code.Lowering

/-!
# Looking up code

The statements, call sites and variables of a program, as lowering makes them. What is known of
well-formed code is restated for them:

* the parts of a statement belong to its method (`Program.fits_of_stmt?`), and a call owns its site
  (`Program.site_of_call`);
* `Program.base?` is the variable that a statement depends on, and a variable knows exactly the
  statements that depend on it (`Program.mem_dependents_iff`).
-/

namespace PointsTo.Program

variable (p : Program) (m : MethodId)

/-- A statement. -/
def stmt? (s : StmtId) : Option Stmt := ((p.code s.method).stmts[s.slot]?).map PlacedStmt.stmt

/-- A call site. -/
def site (s : SiteId) : CallSite := (p.code s.method).sites.getD s.slot default

/-- A variable. -/
def var (v : VarId) : Var := (p.code v.method).vars.getD v.slot default

/-- The variable that a statement depends on. -/
def base? (s : StmtId) : Option VarId := (p.stmt? s).bind (p.code s.method).base?

/-- The type of the objects that an allocation makes. -/
def allocType? (s : StmtId) : Option Ty :=
  match p.stmt? s with
  | some (.alloc _ ty) => some ty
  | _ => none

variable {p m} {s : StmtId}

theorem mem_body_iff : s ∈ (p.code m).body ↔ s.method = m ∧ s.slot < (p.code m).stmts.length := by
  rw [(p.code_wellFormed m).body_eq, List.mem_map]
  constructor
  · rintro ⟨i, hi, rfl⟩
    exact ⟨rfl, List.mem_range.1 hi⟩
  · rintro ⟨rfl, hs⟩
    exact ⟨s.slot, List.mem_range.2 hs, rfl⟩

theorem stmt?_isSome_of_mem_body (h : s ∈ (p.code m).body) : ∃ st, p.stmt? s = some st := by
  obtain ⟨rfl, hs⟩ := mem_body_iff.1 h
  exact ⟨_, by rw [stmt?, List.getElem?_eq_getElem hs]; rfl⟩

theorem mem_body_of_stmt? {st : Stmt} (h : p.stmt? s = some st) : s ∈ (p.code s.method).body := by
  obtain ⟨t, ht, -⟩ := Option.map_eq_some_iff.1 h
  exact mem_body_iff.2 ⟨rfl, (List.getElem?_eq_some_iff.1 ht).1⟩

theorem fits_of_stmt? {st : Stmt} (h : p.stmt? s = some st) :
    (p.code s.method).Fits s.method s.slot st := by
  obtain ⟨t, ht, rfl⟩ := Option.map_eq_some_iff.1 h
  exact (p.code_wellFormed s.method).fits s.slot t ht

theorem allocType?_of_stmt? {lhs : VarId} {ty : Ty} (h : p.stmt? s = some (.alloc lhs ty)) :
    p.allocType? s = some ty := by
  simp [allocType?, h]

/-! ### Calls -/

/-- A call is on a site of its own method, and owns it. -/
theorem site_of_call {id : SiteId} {lhs : Option VarId} (h : p.stmt? s = some (.call id lhs)) :
    id.method = s.method ∧ (p.site id).call = some s ∧
      (p.code s.method).FitsSite s.method (p.site id) := by
  obtain ⟨hm, -, t, ht, hc⟩ := fits_of_stmt? h
  have hsite : p.site id = t := by rw [site, hm, List.getD_eq_getElem?_getD, ht]; rfl
  refine ⟨hm, by rw [hsite]; exact hc, ?_⟩
  rw [hsite]
  exact (p.code_wellFormed s.method).site_fits _ t ht

theorem base?_load {lhs base : VarId} {f : FieldId} (h : p.stmt? s = some (.load lhs base f)) :
    p.base? s = some base := by
  rw [base?, h]; rfl

theorem base?_store {base rhs : VarId} {f : FieldId} (h : p.stmt? s = some (.store base f rhs)) :
    p.base? s = some base := by
  rw [base?, h]; rfl

theorem base?_call {id : SiteId} {lhs : Option VarId} (h : p.stmt? s = some (.call id lhs)) :
    p.base? s = (p.site id).receiver := by
  obtain ⟨hm, -, t, ht, -⟩ := fits_of_stmt? h
  have hsite : p.site id = t := by rw [site, hm, List.getD_eq_getElem?_getD, ht]; rfl
  rw [base?, h, hsite]
  simp only [Option.bind_some, Code.base?, Code.anchor?, Code.receiver?, ht, Option.map_map]
  exact Option.map_id'

theorem base?_method {v : VarId} (h : p.base? s = some v) : v.method = s.method := by
  obtain ⟨st, hst, hb⟩ := Option.bind_eq_some_iff.1 h
  exact ((fits_of_stmt? hst).hasVar_base (p.code_wellFormed s.method).site_fits hb).1

/-- A variable knows exactly the statements that depend on it. -/
theorem mem_dependents_iff {v : VarId} :
    s ∈ (p.var v).dependents ↔ s ∈ (p.code v.method).body ∧ p.base? s = some v := by
  constructor
  · intro h
    cases hv : (p.code v.method).vars[v.slot]? with
    | none =>
      rw [var, List.getD_eq_getElem?_getD, hv] at h
      exact absurd h (List.not_mem_nil (a := s))
    | some x =>
      have hx : p.var v = x := by rw [var, List.getD_eq_getElem?_getD, hv]; rfl
      rw [hx] at h
      obtain ⟨hm, t, ht, hb⟩ := ((p.code_wellFormed _).dependents _ x hv s).1 h
      refine ⟨mem_body_iff.2 ⟨hm, (List.getElem?_eq_some_iff.1 ht).1⟩, ?_⟩
      simp [base?, stmt?, hm, ht, hb]
  · rintro ⟨hbody, hb⟩
    obtain ⟨hm, hs⟩ := mem_body_iff.1 hbody
    obtain ⟨st, hst, hb⟩ := Option.bind_eq_some_iff.1 hb
    have hvar := (fits_of_stmt? hst).hasVar_base (p.code_wellFormed s.method).site_fits hb
    obtain ⟨t, ht, rfl⟩ := Option.map_eq_some_iff.1 hst
    rw [hm] at hvar ht hb
    have hv := List.getElem?_eq_getElem hvar.2
    rw [var, List.getD_eq_getElem?_getD, hv]
    exact ((p.code_wellFormed _).dependents _ _ hv s).2 ⟨hm, t, ht, hb⟩

end PointsTo.Program
