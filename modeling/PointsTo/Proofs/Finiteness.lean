import Mathlib.Data.Finite.Prod
import Mathlib.Data.Set.Finite.List
import PointsTo.Proofs.Solver.Facts

/-!
# Finitely many facts

A program has finitely many statements, and a policy chooses contexts of bounded length over them.
Hence the rules give only finitely many points-to facts and call edges, also for recursive programs.

* `Problem.Admits`: a context of bounded length, made of call sites and allocations of the program;
* `Problem.Derives.bounded`: the methods, objects and fields in derived facts are from finite lists,
  in such contexts;
* `Problem.finite_derives_isWork`: the derived facts that go through the worklist are finitely many.
-/

namespace PointsTo

/-! ### What a program is made of -/

/-- The call site of a statement. -/
def Stmt.site? : Stmt → Option SiteId
  | .call id _ => some id
  | _ => none

/-- The field that a statement loads or stores. -/
def Stmt.field? : Stmt → Option FieldId
  | .load _ _ f | .store _ f _ => some f
  | _ => none

namespace Program

variable (p : Program)

/-- The names of all statements. Only methods that the program declares have any. -/
def stmtIds : List StmtId :=
  (List.range p.methods.length).flatMap fun m => (p.code ⟨m⟩).body

/-- All call sites that statements are on. -/
def callSites : List SiteId :=
  p.stmtIds.filterMap fun s => (p.stmt? s).bind Stmt.site?

/-- All fields that statements load or store. -/
def usedFields : List FieldId :=
  p.stmtIds.filterMap fun s => (p.stmt? s).bind Stmt.field?

/-- What contexts are made of. -/
def contextElements : List ContextElement :=
  p.callSites.map .call ++ p.stmtIds.map .alloc

variable {p}

/-- A method that is not declared has no statements. -/
theorem stmts_of_default {m : MethodId} (h : p.method m = default) : (p.code m).stmts = [] := by
  have hbody : p.body? m = none := by
    rw [body?, h]
    rfl
  unfold code lowering Lower.method
  rw [hbody]
  simp only [Lower.bodiless, h]
  rfl

theorem mem_stmtIds {s : StmtId} {m : MethodId} (h : s ∈ (p.code m).body) : s ∈ p.stmtIds := by
  obtain ⟨n⟩ := m
  refine List.mem_flatMap.2 ⟨n, List.mem_range.2 ?_, h⟩
  by_contra hn
  have hdefault : p.method ⟨n⟩ = default := by
    rw [method, List.getD_eq_getElem?_getD, List.getElem?_eq_none (Nat.not_lt.1 hn)]
    rfl
  have hslot := (mem_body_iff.1 h).2
  rw [stmts_of_default hdefault] at hslot
  simp at hslot

theorem mem_callSites {s : StmtId} {id : SiteId} {lhs : Option VarId}
    (h : p.stmt? s = some (.call id lhs)) : id ∈ p.callSites :=
  List.mem_filterMap.2 ⟨s, mem_stmtIds (mem_body_of_stmt? h), by rw [h]; rfl⟩

theorem mem_usedFields {s : StmtId} {st : Stmt} {f : FieldId} (h : p.stmt? s = some st)
    (hf : st.field? = some f) : f ∈ p.usedFields :=
  List.mem_filterMap.2 ⟨s, mem_stmtIds (mem_body_of_stmt? h), by rw [h]; exact hf⟩

/-- A dispatched call reaches a method that the program declares. -/
theorem num_lt_of_dispatch? {ty : Ty} {sub : String} {m : MethodId}
    (h : p.dispatch? ty sub = some m) : m.num < p.methods.length := by
  obtain ⟨c, -, himpl⟩ := Option.bind_eq_some_iff.1 h
  obtain ⟨d, -, hdecl⟩ := List.exists_of_findSome?_eq_some himpl
  have hm := List.mem_of_find?_eq_some hdecl
  obtain ⟨n, hn, rfl⟩ := List.mem_map.1 (List.mem_filter.1 hm).1
  exact List.mem_range.1 hn

end Program

/-! ### Contexts, methods and objects -/

/-- How many elements the contexts of a policy have at most. -/
def ContextPolicy.depth : ContextPolicy → Nat
  | .insensitive => 0
  | .callSite k | .object k => k

namespace Problem

variable (q : Problem)

/-- The context can be chosen by the policy. -/
def Admits (c : Context) : Prop :=
  c.length ≤ q.policy.depth ∧ ∀ e ∈ c, e ∈ q.program.contextElements

/-- The methods that can become reachable: the entries, what calls name, and what the program
declares. -/
def methods : List MethodId :=
  q.entries ++ q.program.callSites.map (fun id => (q.program.site id).target) ++
    (List.range q.program.methods.length).map MethodId.mk

/-- The method can become reachable in its context. -/
def AdmitsMethod (m : CtxMethod) : Prop := q.Admits m.ctx ∧ m.method ∈ q.methods

/-- The object can be made. -/
def AdmitsObj (o : Obj) : Prop := o.site ∈ q.program.stmtIds ∧ q.Admits o.heap

/-- The pointer is a variable, or a field that is used, of an object that can be made. -/
def AdmitsField : Pointer → Prop
  | .var _ _ => True
  | .field o f => q.AdmitsObj o ∧ f ∈ q.program.usedFields

/-- The methods, objects and fields in a fact are admissible. -/
def Bounded : Fact → Prop
  | .reach m => q.AdmitsMethod m
  | .edge _ e => q.AdmitsMethod e.callee
  | .points p o => q.AdmitsField p ∧ q.AdmitsObj o
  | .flow a b => q.AdmitsField a ∧ q.AdmitsField b
  | .site _ _ => True

variable {q} {c : Context}

theorem admits_nil : q.Admits [] := ⟨Nat.zero_le _, nofun⟩

theorem admits_suffix {n : Nat} (hn : n ≤ q.policy.depth)
    (h : ∀ e ∈ c, e ∈ q.program.contextElements) : q.Admits (c.suffix n) := by
  refine ⟨?_, fun e he => h e (List.mem_of_mem_drop he)⟩
  rw [Context.suffix, List.length_drop]
  omega

theorem admits_append {e : ContextElement} {n : Nat} (hn : n ≤ q.policy.depth) (hc : q.Admits c)
    (he : e ∈ q.program.contextElements) : q.Admits (c.append e n) := by
  refine admits_suffix hn fun e' he' => ?_
  rcases List.mem_append.1 he' with he' | he'
  · exact hc.2 e' he'
  · rw [List.mem_singleton.1 he']
    exact he

/-- The context of a callee is admissible. -/
theorem admits_calleeContext {id : SiteId} {receiver : Option Obj} (hc : q.Admits c)
    (hid : id ∈ q.program.callSites) (ho : ∀ o, receiver = some o → q.AdmitsObj o) :
    q.Admits (q.policy.calleeContext c id receiver) := by
  have hcall : .call id ∈ q.program.contextElements :=
    List.mem_append_left _ (List.mem_map.2 ⟨id, hid, rfl⟩)
  unfold ContextPolicy.calleeContext
  split <;> rename_i hpolicy
  · exact admits_nil
  · refine admits_append ?_ hc hcall
    rw [hpolicy]
    exact Nat.le_refl _
  · rename_i k o
    obtain ⟨hsite, hheap⟩ := ho o rfl
    refine admits_append ?_ hheap (List.mem_append_right _ (List.mem_map.2 ⟨o.site, hsite, rfl⟩))
    rw [hpolicy]
    exact Nat.le_refl _
  · exact hc

/-- The context of a new object is admissible. -/
theorem admits_heapContext (hc : q.Admits c) : q.Admits (q.policy.heapContext c) := by
  unfold ContextPolicy.heapContext
  split <;> rename_i hpolicy
  · exact admits_nil
  all_goals
    refine admits_suffix ?_ hc.2
    rw [hpolicy]
    exact Nat.sub_le _ _

/-! ### Derived facts are bounded -/

variable {m : CtxMethod} {s : StmtId} {o : Obj} {f : Fact}

theorem Effect.bounded (hm : q.AdmitsMethod m) (hs : s ∈ (q.program.code m.method).body)
    (hf : q.Effect m s f) : q.Bounded f := by
  cases hf with
  | alloc => exact ⟨trivial, Program.mem_stmtIds hs, admits_heapContext hm.1⟩
  | assign => exact ⟨trivial, trivial⟩
  | site => trivial
  | call h =>
    have hid := Program.mem_callSites h
    refine ⟨admits_calleeContext hm.1 hid nofun, ?_⟩
    exact List.mem_append_left _ (List.mem_append_right _ (List.mem_map.2 ⟨_, hid, rfl⟩))

theorem Reaction.bounded (hm : q.AdmitsMethod m) (ho : q.AdmitsObj o) (hf : q.Reaction m s o f) :
    q.Bounded f := by
  cases hf with
  | load h => exact ⟨⟨ho, Program.mem_usedFields h rfl⟩, trivial⟩
  | store h => exact ⟨trivial, ho, Program.mem_usedFields h rfl⟩
  | call h hk hf =>
    cases hf with
    | edge ht =>
      refine ⟨admits_calleeContext hm.1 (Program.mem_callSites h) ?_, ?_⟩
      · rintro o ⟨⟩
        exact ho
      · obtain ⟨ty, -, hd⟩ := Option.bind_eq_some_iff.1 ht
        have hnum := Program.num_lt_of_dispatch? hd
        exact List.mem_append_right _ (List.mem_map.2 ⟨_, List.mem_range.2 hnum, rfl⟩)
    | this => exact ⟨trivial, ho⟩

/-- The methods, objects and fields in derived facts are admissible. -/
theorem Derives.bounded (h : q.Derives f) : q.Bounded f := by
  induction h with
  | entry hm => exact ⟨admits_nil, List.mem_append_left _ (List.mem_append_left _ hm)⟩
  | effect hm hs hf ihm => exact hf.bounded ihm hs
  | reaction hm hs hv ho hf ihm iho => exact hf.bounded ihm iho.2
  | callee he ih => exact ih
  | binding he hf => cases hf <;> exact ⟨trivial, trivial⟩
  | subset hab ho ihab iho => exact ⟨ihab.2, iho.2⟩

/-! ### Finiteness -/

variable (q)

theorem finite_admits : {c | q.Admits c}.Finite := by
  have hlists := List.finite_length_le {e // e ∈ q.program.contextElements} q.policy.depth
  refine (hlists.image (List.map Subtype.val)).subset ?_
  rintro c ⟨hlen, hc⟩
  lift c to List {e // e ∈ q.program.contextElements} using hc
  exact ⟨c, by simpa using hlen, rfl⟩

theorem finite_admitsObj : {o | q.AdmitsObj o}.Finite := by
  refine ((List.finite_toSet q.program.stmtIds).image2 Obj.mk q.finite_admits).subset ?_
  rintro ⟨s, c⟩ ⟨hs, hc⟩
  exact ⟨s, hs, c, hc, rfl⟩

theorem finite_admitsMethod : {m | q.AdmitsMethod m}.Finite := by
  refine (q.finite_admits.image2 CtxMethod.mk (List.finite_toSet q.methods)).subset ?_
  rintro ⟨c, m⟩ ⟨hc, hm⟩
  exact ⟨c, hc, m, hm, rfl⟩

/-- The variables of the methods that can become reachable. -/
def vars : List VarId :=
  q.methods.flatMap fun m => (List.range (q.program.code m).vars.length).map (VarId.mk m)

/-- The pointers that derived facts are about are finitely many. -/
theorem finite_pointers : {p | q.Lives p ∧ q.AdmitsField p}.Finite := by
  have hvars := q.finite_admits.image2 Pointer.var (List.finite_toSet q.vars)
  have hfields := q.finite_admitsObj.image2 Pointer.field (List.finite_toSet q.program.usedFields)
  refine (hvars.union hfields).subset ?_
  rintro p ⟨hlives, hfield⟩
  cases p with
  | var c v =>
    obtain ⟨hreach, -, hslot⟩ := hlives
    obtain ⟨hc, hm⟩ : q.AdmitsMethod ⟨c, v.method⟩ := hreach.bounded
    refine .inl ⟨c, hc, v, List.mem_flatMap.2 ⟨v.method, hm, ?_⟩, rfl⟩
    exact List.mem_map.2 ⟨v.slot, List.mem_range.2 hslot, rfl⟩
  | field o x => exact .inr ⟨o, hfield.1, x, hfield.2, rfl⟩

theorem finite_derives_points : {f | q.Derives f ∧ ∃ p o, f = .points p o}.Finite := by
  refine (q.finite_pointers.image2 Fact.points q.finite_admitsObj).subset ?_
  rintro f ⟨hf, p, o, rfl⟩
  exact ⟨p, ⟨hf.home.1, hf.bounded.1⟩, o, hf.bounded.2, rfl⟩

/-- A derived call edge is given by its call site, the context of the caller, and the callee. -/
theorem finite_derives_edge : {f | q.Derives f ∧ ∃ m e, f = .edge m e}.Finite := by
  have hcallers := q.finite_admits.prod (List.finite_toSet q.program.callSites)
  refine (hcallers.image2 (fun x callee => Fact.edge ⟨x.1, x.2.method⟩
    ⟨(q.program.site x.2).kind, ⟨x.1, x.2⟩, callee⟩) q.finite_admitsMethod).subset ?_
  rintro f ⟨hf, m, e, rfl⟩
  obtain ⟨hm, hreach, hkind, s, lhs, hs⟩ := hf.home
  obtain ⟨hctx, -⟩ : q.AdmitsMethod m := hreach.bounded
  refine ⟨(e.site.ctx, e.site.site), ⟨?_, Program.mem_callSites hs⟩, e.callee, hf.bounded, ?_⟩
  · rw [hm] at hctx
    exact hctx
  · simp only [hm, ← hkind]

/-- The derived facts that go through the worklist are finitely many. -/
theorem finite_derives_isWork : {f | q.Derives f ∧ f.IsWork}.Finite := by
  refine (q.finite_derives_points.union q.finite_derives_edge).subset ?_
  rintro f ⟨hf, hw⟩
  cases f with
  | points p o => exact .inl ⟨hf, p, o, rfl⟩
  | edge m e => exact .inr ⟨hf, m, e, rfl⟩
  | reach | site | flow => exact hw.elim

end Problem

end PointsTo
