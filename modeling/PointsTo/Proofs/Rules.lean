import PointsTo.Proofs.Elements.Faithful
import PointsTo.Solver.Run

/-!
# The rules of the analysis

What the analysis is to find is defined by rules, without worklist, order or state. A `Problem` is a
program with its entries and a context policy, and a `Fact` is something that can be found.

* `Problem.Effect`: what a statement of a reachable method yields by itself;
* `Problem.Reaction`: what it yields for an object of the variable that it depends on;
* `Problem.Binding`: what a call edge yields;
* `Problem.Derives`: the facts that finitely many steps by these rules give;
* `Problem.Faulty`: the rules lead to a method that cannot be lowered, or to a call on an object
  without implementation.

A fact that is derived is at home (`Problem.Derives.home`): its variables are in methods that are
reachable in its contexts.
-/

namespace PointsTo

/-- A program to be analysed from some entries, with the contexts that a policy chooses. -/
structure Problem where
  program : Program
  entries : List MethodId
  policy : ContextPolicy

/-- What the analysis can find. -/
inductive Fact where
  /-- A method is reachable in a context. -/
  | reach (m : CtxMethod)
  /-- A method that is reachable in a context has a call site. -/
  | site (m : CtxMethod) (s : CtxSite)
  /-- There is a call edge from `caller`. -/
  | edge (caller : CtxMethod) (e : CtxEdge)
  /-- A pointer refers to an object. -/
  | points (p : Pointer) (o : Obj)
  /-- What `a` refers to, `b` refers to. -/
  | flow (a b : Pointer)

namespace Problem

variable (q : Problem)

/-- The solver for a problem, without plugins and before its run. Only the entries are in the
element tables. -/
def solver (order : WorklistOrder) : Solver .idle :=
  .create .idle (.fresh q.program q.entries) [] q.entries q.policy order

/-- The method that a dispatched call at a call site reaches on an object. -/
def target? (id : SiteId) (o : Obj) : Option MethodId :=
  (q.program.allocType? o.site).bind fun ty =>
    q.program.dispatch? ty (q.program.subsignature (q.program.site id).target)

/-- The edge of a call at the site `id` in `m`, to `callee` in the context that the policy
chooses. -/
def edgeTo (m : CtxMethod) (id : SiteId) (receiver : Option Obj) (callee : MethodId) : CtxEdge :=
  ⟨(q.program.site id).kind, ⟨m.ctx, id⟩, ⟨q.policy.calleeContext m.ctx id receiver, callee⟩⟩

/-- What the statement `s` yields in the method `m`. -/
inductive Effect (m : CtxMethod) (s : StmtId) : Fact → Prop
  | alloc {lhs : VarId} {ty : Ty} (h : q.program.stmt? s = some (.alloc lhs ty)) :
      Effect m s (.points (.var m.ctx lhs) ⟨s, q.policy.heapContext m.ctx⟩)
  | assign {lhs rhs : VarId} (h : q.program.stmt? s = some (.assign lhs rhs)) :
      Effect m s (.flow (.var m.ctx rhs) (.var m.ctx lhs))
  | site {id : SiteId} {lhs : Option VarId} (h : q.program.stmt? s = some (.call id lhs)) :
      Effect m s (.site m ⟨m.ctx, id⟩)
  | call {id : SiteId} {lhs : Option VarId} (h : q.program.stmt? s = some (.call id lhs))
      (hk : (q.program.site id).kind = .static ∨ (q.program.site id).kind = .special) :
      Effect m s (.edge m (q.edgeTo m id none (q.program.site id).target))

/-- What a dispatched call at the site `id` in `m` yields for a receiver object. -/
inductive Dispatched (m : CtxMethod) (id : SiteId) (o : Obj) : Fact → Prop
  | edge {callee : MethodId} (ht : q.target? id o = some callee) :
      Dispatched m id o (.edge m (q.edgeTo m id (some o) callee))
  | this {callee : MethodId} {this : VarId} (ht : q.target? id o = some callee)
      (h : (q.program.code callee).this = some this) :
      Dispatched m id o (.points (.var (q.policy.calleeContext m.ctx id (some o)) this) o)

/-- What the statement `s` yields in the method `m` for an object of the variable that it depends
on. -/
inductive Reaction (m : CtxMethod) (s : StmtId) (o : Obj) : Fact → Prop
  | load {lhs base : VarId} {f : FieldId} (h : q.program.stmt? s = some (.load lhs base f)) :
      Reaction m s o (.flow (.field o f) (.var m.ctx lhs))
  | store {base rhs : VarId} {f : FieldId} (h : q.program.stmt? s = some (.store base f rhs)) :
      Reaction m s o (.flow (.var m.ctx rhs) (.field o f))
  | call {id : SiteId} {lhs : Option VarId} {f : Fact}
      (h : q.program.stmt? s = some (.call id lhs))
      (hk : (q.program.site id).kind.isDispatched = true) (hf : q.Dispatched m id o f) :
      Reaction m s o f

/-- What a call edge yields: arguments flow into parameters, what the callee returns into the result
of the call, and for a special call the receiver into the receiver of the callee. -/
inductive Binding (e : CtxEdge) : Fact → Prop
  | arg {a x : VarId} (h : (some a, some x) ∈
      (q.program.site e.site.site).args.zip (q.program.code e.callee.method).params) :
      Binding e (.flow (.var e.site.ctx a) (.var e.callee.ctx x))
  | result {s : StmtId} {lhs r : VarId}
      (h : q.program.stmt? s = some (.call e.site.site (some lhs)))
      (hr : r ∈ (q.program.code e.callee.method).returns) :
      Binding e (.flow (.var e.callee.ctx r) (.var e.site.ctx lhs))
  | receiver {r this : VarId} (hk : e.kind = .special)
      (hr : (q.program.site e.site.site).receiver = some r)
      (ht : (q.program.code e.callee.method).this = some this) :
      Binding e (.flow (.var e.site.ctx r) (.var e.callee.ctx this))

/-- The facts that the rules give. -/
inductive Derives : Fact → Prop
  | entry {m : MethodId} (h : m ∈ q.entries) : Derives (.reach ⟨[], m⟩)
  | effect {m : CtxMethod} {s : StmtId} {f : Fact} (hm : Derives (.reach m))
      (hs : s ∈ (q.program.code m.method).body) (hf : q.Effect m s f) : Derives f
  | reaction {m : CtxMethod} {s : StmtId} {v : VarId} {o : Obj} {f : Fact}
      (hm : Derives (.reach m)) (hs : s ∈ (q.program.code m.method).body)
      (hv : q.program.base? s = some v) (ho : Derives (.points (.var m.ctx v) o))
      (hf : q.Reaction m s o f) : Derives f
  | callee {m : CtxMethod} {e : CtxEdge} (he : Derives (.edge m e)) : Derives (.reach e.callee)
  | binding {m : CtxMethod} {e : CtxEdge} {f : Fact} (he : Derives (.edge m e))
      (hf : q.Binding e f) : Derives f
  | subset {a b : Pointer} {o : Obj} (hf : Derives (.flow a b)) (ho : Derives (.points a o)) :
      Derives (.points b o)

/-- The rules lead to a method that cannot be lowered, or to a dispatched call on an object that has
no implementation. -/
inductive Faulty : Prop
  | lowering {m : CtxMethod} {e : Error} (hm : q.Derives (.reach m))
      (h : (q.program.lowering m.method).1 = .error e)
  | dispatch {m : CtxMethod} {s : StmtId} {v : VarId} {o : Obj} {id : SiteId} {lhs : Option VarId}
      (hm : q.Derives (.reach m)) (hs : s ∈ (q.program.code m.method).body)
      (hv : q.program.base? s = some v) (ho : q.Derives (.points (.var m.ctx v) o))
      (h : q.program.stmt? s = some (.call id lhs))
      (hk : (q.program.site id).kind.isDispatched = true) (ht : q.target? id o = none)

/-! ### The rules for a given statement -/

section

variable {q} {m : CtxMethod} {s : StmtId} {o : Obj} {f : Fact}

theorem effect_alloc_iff {lhs : VarId} {ty : Ty} (h : q.program.stmt? s = some (.alloc lhs ty)) :
    q.Effect m s f ↔ f = .points (.var m.ctx lhs) ⟨s, q.policy.heapContext m.ctx⟩ := by
  constructor
  · rintro (h' | h' | h' | ⟨h', -⟩) <;> cases h.symm.trans h'
    rfl
  · rintro rfl
    exact .alloc h

theorem effect_assign_iff {lhs rhs : VarId} (h : q.program.stmt? s = some (.assign lhs rhs)) :
    q.Effect m s f ↔ f = .flow (.var m.ctx rhs) (.var m.ctx lhs) := by
  constructor
  · rintro (h' | h' | h' | ⟨h', -⟩) <;> cases h.symm.trans h'
    rfl
  · rintro rfl
    exact .assign h

theorem not_effect_load {lhs base : VarId} {x : FieldId}
    (h : q.program.stmt? s = some (.load lhs base x)) : ¬ q.Effect m s f := by
  rintro (h' | h' | h' | ⟨h', -⟩) <;> cases h.symm.trans h'

theorem not_effect_store {base rhs : VarId} {x : FieldId}
    (h : q.program.stmt? s = some (.store base x rhs)) : ¬ q.Effect m s f := by
  rintro (h' | h' | h' | ⟨h', -⟩) <;> cases h.symm.trans h'

theorem effect_call_iff {id : SiteId} {lhs : Option VarId}
    (h : q.program.stmt? s = some (.call id lhs)) :
    q.Effect m s f ↔ f = .site m ⟨m.ctx, id⟩ ∨
      ((q.program.site id).kind = .static ∨ (q.program.site id).kind = .special) ∧
        f = .edge m (q.edgeTo m id none (q.program.site id).target) := by
  constructor
  · rintro (h' | h' | h' | ⟨h', hk⟩) <;> cases h.symm.trans h'
    · exact .inl rfl
    · exact .inr ⟨hk, rfl⟩
  · rintro (rfl | ⟨hk, rfl⟩)
    · exact .site h
    · exact .call h hk

theorem reaction_load_iff {lhs base : VarId} {x : FieldId}
    (h : q.program.stmt? s = some (.load lhs base x)) :
    q.Reaction m s o f ↔ f = .flow (.field o x) (.var m.ctx lhs) := by
  constructor
  · rintro (h' | h' | ⟨h', -, -⟩) <;> cases h.symm.trans h'
    rfl
  · rintro rfl
    exact .load h

theorem reaction_store_iff {base rhs : VarId} {x : FieldId}
    (h : q.program.stmt? s = some (.store base x rhs)) :
    q.Reaction m s o f ↔ f = .flow (.var m.ctx rhs) (.field o x) := by
  constructor
  · rintro (h' | h' | ⟨h', -, -⟩) <;> cases h.symm.trans h'
    rfl
  · rintro rfl
    exact .store h

theorem reaction_call_iff {id : SiteId} {lhs : Option VarId}
    (h : q.program.stmt? s = some (.call id lhs)) :
    q.Reaction m s o f ↔
      (q.program.site id).kind.isDispatched = true ∧ q.Dispatched m id o f := by
  constructor
  · rintro (h' | h' | ⟨h', hk, hf⟩) <;> cases h.symm.trans h'
    exact ⟨hk, hf⟩
  · rintro ⟨hk, hf⟩
    exact .call h hk hf

/-- The owner of a call site says where the result goes. -/
theorem binding_iff {e : CtxEdge} {lhs : Option VarId}
    (h : q.program.stmt? s = some (.call e.site.site lhs)) :
    q.Binding e f ↔
      (∃ a x, (some a, some x) ∈
          (q.program.site e.site.site).args.zip (q.program.code e.callee.method).params ∧
        f = .flow (.var e.site.ctx a) (.var e.callee.ctx x)) ∨
      (∃ r ∈ (q.program.code e.callee.method).returns, ∃ v, lhs = some v ∧
        f = .flow (.var e.callee.ctx r) (.var e.site.ctx v)) ∨
      ∃ r this, e.kind = .special ∧ (q.program.site e.site.site).receiver = some r ∧
        (q.program.code e.callee.method).this = some this ∧
        f = .flow (.var e.site.ctx r) (.var e.callee.ctx this) := by
  constructor
  · rintro (hz | ⟨h', hr⟩ | ⟨hk, hr, ht⟩)
    · exact .inl ⟨_, _, hz, rfl⟩
    · have hs := (Program.site_of_call h).2.1.symm.trans (Program.site_of_call h').2.1
      cases hs
      cases h.symm.trans h'
      exact .inr (.inl ⟨_, hr, _, rfl, rfl⟩)
    · exact .inr (.inr ⟨_, _, hk, hr, ht, rfl⟩)
  · rintro (⟨a, x, hz, rfl⟩ | ⟨r, hr, v, rfl, rfl⟩ | ⟨r, this, hk, hr, ht, rfl⟩)
    · exact .arg hz
    · exact .result h hr
    · exact .receiver hk hr ht

end

/-! ### Derived facts are at home -/

/-- A pointer that derived facts can be about: a variable of a method that is reachable in the
context, or a field of an object. -/
def Lives : Pointer → Prop
  | .var ctx v => q.Derives (.reach ⟨ctx, v.method⟩) ∧ (q.program.code v.method).HasVar v.method v
  | .field o _ => ∃ ty, q.program.allocType? o.site = some ty

/-- What a derived fact is about belongs to methods that are reachable, and its objects come from
allocations. -/
def Home : Fact → Prop
  | .reach _ => True
  | .site m s => m = ⟨s.ctx, s.site.method⟩ ∧ q.Derives (.reach m) ∧
      ∃ st lhs, q.program.stmt? st = some (.call s.site lhs)
  | .edge m e => m = ⟨e.site.ctx, e.site.site.method⟩ ∧ q.Derives (.reach m) ∧
      e.kind = (q.program.site e.site.site).kind ∧
      ∃ s lhs, q.program.stmt? s = some (.call e.site.site lhs)
  | .points p o => q.Lives p ∧ ∃ ty, q.program.allocType? o.site = some ty
  | .flow a b => q.Lives a ∧ q.Lives b

variable {q} {m : CtxMethod} {s : StmtId}

theorem lives_var {v : VarId} (hm : q.Derives (.reach m))
    (hv : (q.program.code m.method).HasVar m.method v) : q.Lives (.var m.ctx v) := by
  obtain ⟨ctx, method⟩ := m
  obtain ⟨rfl, hv⟩ := hv
  exact ⟨hm, rfl, hv⟩

theorem fits_of_mem_body {st : Stmt} (hs : s ∈ (q.program.code m.method).body)
    (h : q.program.stmt? s = some st) :
    (q.program.code m.method).Fits m.method s.slot st := by
  have hfit := Program.fits_of_stmt? h
  rwa [(Program.mem_body_iff.1 hs).1] at hfit

/-- The call site of a statement of `m`, in the context of `m`, belongs to `m`. -/
theorem eq_home_of_call {id : SiteId} {lhs : Option VarId}
    (hs : s ∈ (q.program.code m.method).body) (h : q.program.stmt? s = some (.call id lhs)) :
    m = ⟨m.ctx, id.method⟩ := by
  rw [(Program.site_of_call h).1, (Program.mem_body_iff.1 hs).1]

theorem Effect.home {f : Fact} (hm : q.Derives (.reach m))
    (hs : s ∈ (q.program.code m.method).body) (hf : q.Effect m s f) : q.Home f := by
  cases hf with
  | alloc h => exact ⟨lives_var hm (fits_of_mem_body hs h), _, Program.allocType?_of_stmt? h⟩
  | assign h =>
    have hfit := fits_of_mem_body hs h
    exact ⟨lives_var hm hfit.2, lives_var hm hfit.1⟩
  | site h => exact ⟨eq_home_of_call hs h, hm, s, _, h⟩
  | call h hk => exact ⟨eq_home_of_call hs h, hm, rfl, s, _, h⟩

theorem Reaction.home {v : VarId} {o : Obj} {f : Fact} (hm : q.Derives (.reach m))
    (hs : s ∈ (q.program.code m.method).body) (hv : q.program.base? s = some v)
    (ho : q.Derives (.points (.var m.ctx v) o))
    (hty : ∃ ty, q.program.allocType? o.site = some ty) (hf : q.Reaction m s o f) : q.Home f := by
  cases hf with
  | load h => exact ⟨hty, lives_var hm (fits_of_mem_body hs h).1⟩
  | store h => exact ⟨lives_var hm (fits_of_mem_body hs h).2, hty⟩
  | call h hk hf =>
    cases hf with
    | edge ht => exact ⟨eq_home_of_call hs h, hm, rfl, s, _, h⟩
    | this ht hthis =>
      -- the edge to the callee is derived as well, so the callee is reachable
      have he := Derives.reaction hm hs hv ho (.call h hk (.edge ht))
      have hthis := (q.program.code_wellFormed _).this_has _ hthis
      exact ⟨lives_var (m := (q.edgeTo m _ (some o) _).callee) (.callee he) hthis, hty⟩

theorem Binding.home {e : CtxEdge} {f : Fact} (he : q.Derives (.edge m e))
    (hhome : q.Home (.edge m e)) (hf : q.Binding e f) : q.Home f := by
  obtain ⟨rfl, hm, -, s, lhs, hs⟩ := hhome
  obtain ⟨hmethod, -, hfit⟩ := Program.site_of_call hs
  rw [← hmethod] at hfit
  have hcallee := q.program.code_wellFormed e.callee.method
  have hreach : q.Derives (.reach e.callee) := .callee he
  cases hf with
  | arg h =>
    obtain ⟨ha, hx⟩ := List.of_mem_zip h
    exact ⟨lives_var hm (hfit.2 _ ha), lives_var hreach (hcallee.params_have _ hx)⟩
  | result h hr =>
    obtain ⟨hm', hlhs, -⟩ := Program.fits_of_stmt? h
    rw [← hm'] at hlhs
    exact ⟨lives_var hreach (hcallee.returns_have _ hr), lives_var hm (hlhs _ rfl)⟩
  | receiver hk hr ht =>
    exact ⟨lives_var hm (hfit.1 _ hr), lives_var hreach (hcallee.this_has _ ht)⟩

/-- Derived facts are at home. -/
theorem Derives.home {f : Fact} (h : q.Derives f) : q.Home f := by
  induction h with
  | entry | callee => trivial
  | effect hm hs hf => exact hf.home hm hs
  | reaction hm hs hv ho hf _ ih => exact hf.home hm hs hv ho ih.2
  | binding he hf ih => exact hf.home he ih
  | subset hf ho ihf iho => exact ⟨ihf.2, iho.2⟩

end Problem

end PointsTo
