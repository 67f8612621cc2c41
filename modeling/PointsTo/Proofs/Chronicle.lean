import PointsTo.Proofs.CallGraph.MethodGraph
import PointsTo.Proofs.Solver.Schedule

/-!
# The event stream

What plugins are told is a faithful log of the run, if they only observe: each delta of a points-to
set, each call edge, each method and each statement of a body is announced once, and in an order in
which things can be understood. The events reach the plugins one after the other.

* `Core.Chronicle`: how the news of a run relates to the state, also when methods are ignored;
* `Core.Chronicle.append`: what happens next is added at its end;
* `Core.Faithful`: the same when no method is ignored;
* `Solver.walks_faithful`: after any number of steps the log is faithful.
-/

namespace PointsTo

namespace Event

/-- The objects that an event brings to a variable in a context. -/
def delta? (ctx : Context) (v : VarId) : Event → Option PointsToSet
  | .newPointsTo ctx' v' delta => if ctx' = ctx ∧ v' = v then some delta else none
  | _ => none

/-- The call edge that an event tells of. -/
def edge? : Event → Option CtxEdge
  | .newCallEdge e => some e
  | _ => none

/-- The method in a context that an event tells of. -/
def ctxMethod? : Event → Option CtxMethod
  | .newCtxMethod m => some m
  | _ => none

/-- Whether an event tells of a method, a statement of its body, or the method in a context. -/
def isAbout (m : MethodId) : Event → Bool
  | .newMethod m' | .newStmt _ m' => m' = m
  | .newCtxMethod x => x.method = m
  | .start | .finish | .newPointsTo _ _ _ | .newCallEdge _ | .unresolvedCall _ => false

end Event

/-- Sets of objects that are not empty, have no objects in common, and make up `S`. -/
structure Deltas (ds : List PointsToSet) (S : Obj → Prop) : Prop where
  nonempty : ∀ d ∈ ds, ∃ o, o ∈ d
  disjoint : ds.Pairwise fun d d' => ∀ o ∈ d, o ∉ d'
  union : ∀ o, S o ↔ ∃ d ∈ ds, o ∈ d

theorem Deltas.congr {ds : List PointsToSet} {S S' : Obj → Prop} (h : Deltas ds S)
    (hS : ∀ o, S' o ↔ S o) : Deltas ds S' :=
  ⟨h.nonempty, h.disjoint, fun o => (hS o).trans (h.union o)⟩

theorem Deltas.concat {ds : List PointsToSet} {d : PointsToSet} {S S' : Obj → Prop}
    (h : Deltas ds S) (hnew : ∃ o, o ∈ d) (hdisjoint : ∀ o ∈ d, ¬ S o)
    (hS : ∀ o, S' o ↔ S o ∨ o ∈ d) : Deltas (ds ++ [d]) S' where
  nonempty d' hd' := by
    rcases List.mem_append.1 hd' with hd' | hd'
    · exact h.nonempty d' hd'
    · rw [List.mem_singleton.1 hd']
      exact hnew
  disjoint := by
    apply List.pairwise_append.2 ⟨h.disjoint, List.pairwise_singleton _ d, ?_⟩
    intro d₁ hd₁ d₂ hd₂ o ho₁ ho₂
    rw [List.mem_singleton.1 hd₂] at ho₂
    exact hdisjoint o ho₂ ((h.union o).2 ⟨d₁, hd₁, ho₁⟩)
  union o := by
    rw [hS, h.union]
    simp only [List.mem_append, List.mem_singleton]
    constructor
    · rintro (⟨d', hd', ho⟩ | ho)
      · exact ⟨d', .inl hd', ho⟩
      · exact ⟨d, .inr rfl, ho⟩
    · rintro ⟨d', hd' | rfl, ho⟩
      · exact .inl ⟨d', hd', ho⟩
      · exact .inr ho

/-- Where an entry of a list is, when the list has grown. -/
theorem append_eq_append_cons {α : Type} {l l' l₁ l₂ : List α} {a : α}
    (h : l ++ l' = l₁ ++ a :: l₂) :
    (∃ k, l = l₁ ++ a :: k) ∨ ∃ k, l₁ = l ++ k ∧ l' = k ++ a :: l₂ := by
  rcases List.append_eq_append_iff.1 h with ⟨k, hk, hl'⟩ | ⟨k, hk, hl⟩
  · exact .inr ⟨k, hk, hl'⟩
  · cases k with
    | nil => exact .inr ⟨[], by simpa using hk.symm, by simpa using hl.symm⟩
    | cons b k =>
      cases hl
      exact .inl ⟨k, hk⟩

/-- What is told of a method in the course of a run, when it becomes reachable in some contexts. -/
def account (m : MethodId) (body : List StmtId) (contexts : List CtxMethod) : List Event :=
  .newMethod m :: (body.map fun s => .newStmt s m) ++
    (contexts.filter fun x => x.method = m).map .newCtxMethod

namespace Core

/-- How news relates to the state. Methods that are ignored become reachable without being told
of. -/
structure Chronicle (c : Core) (news : List Event) : Prop where
  points : ∀ ctx v, Deltas (news.filterMap (Event.delta? ctx v)) fun o =>
    c.Holds (.points (.var ctx v) o)
  edges : news.filterMap Event.edge? = c.analysis.calls.edges
  callees : ∀ l₁ e l₂, news = l₁ ++ .newCallEdge e :: l₂ →
    e.callee.method ∈ c.ignored ∨ .newCtxMethod e.callee ∈ l₁
  ctxMethods : news.filterMap Event.ctxMethod? =
    c.analysis.calls.methods.toList.filter fun x => x.method ∉ c.ignored
  methods : ∀ m, news.filter (Event.isAbout m) =
    if m ∈ c.seen then
      account m (c.elements.code m).body c.analysis.calls.methods.toList
    else []
  seen : ∀ m, m ∈ c.seen ↔ m ∉ c.ignored ∧ ∃ x, c.Reaches x ∧ x.method = m
  built : ∀ m ∈ c.seen, c.elements.isBuilt m = true

variable {c c' : Core} {news : List Event} {m : CtxMethod} {e : CtxEdge}

theorem toList_insert_of_new (hm : ¬ c.Reaches m) :
    (c.analysis.calls.methods.insert m).toList = c.analysis.calls.methods.toList ++ [m] := by
  rw [OrderedSet.toList_insert]
  exact if_neg hm

/-! ### The events of a method -/

section

variable (m : CtxMethod) (body : List StmtId) (seen : Bool)

theorem mem_debut {x : Event} (hx : x ∈ debut m body seen) :
    x = .newMethod m.method ∨ (∃ s ∈ body, x = .newStmt s m.method) ∨ x = .newCtxMethod m := by
  simp only [debut, List.mem_append, List.mem_singleton] at hx
  rcases hx with hx | rfl
  · cases seen with
    | true => cases hx
    | false =>
      simp only [Bool.false_eq_true, if_false, List.mem_cons, List.mem_map] at hx
      rcases hx with rfl | ⟨s, hs, rfl⟩
      · exact .inl rfl
      · exact .inr (.inl ⟨s, hs, rfl⟩)
  · exact .inr (.inr rfl)

theorem filterMap_debut {β : Type} {f : Event → Option β} (hmethod : f (.newMethod m.method) = none)
    (hstmt : ∀ s, f (.newStmt s m.method) = none) :
    (debut m body seen).filterMap f = (f (.newCtxMethod m)).toList := by
  cases seen with
  | true => cases hf : f (.newCtxMethod m) <;> simp [debut, hf]
  | false => cases hf : f (.newCtxMethod m) <;> simp [debut, hf, hmethod, hstmt]

/-- The events tell of one method only. -/
theorem filter_debut (m' : MethodId) :
    (debut m body seen).filter (Event.isAbout m') =
      if m.method = m' then debut m body seen else [] := by
  split <;> rename_i hm
  · subst hm
    apply List.filter_eq_self.2
    intro x hx
    rcases mem_debut m body seen hx with rfl | ⟨s, -, rfl⟩ | rfl <;> simp [Event.isAbout]
  · apply List.filter_eq_nil_iff.2
    intro x hx
    rcases mem_debut m body seen hx with rfl | ⟨s, -, rfl⟩ | rfl <;> simp [Event.isAbout, hm]

end

namespace Chronicle

theorem mem_of_reaches (h : c.Chronicle news) (hm : c.Reaches m) (hi : m.method ∉ c.ignored) :
    .newCtxMethod m ∈ news := by
  have hmem : m ∈ news.filterMap Event.ctxMethod? := by
    rw [h.ctxMethods]
    exact List.mem_filter.2 ⟨hm, by simpa using hi⟩
  obtain ⟨x, hx, heq⟩ := List.mem_filterMap.1 hmem
  cases x with
  | newCtxMethod m' =>
    cases heq
    exact hx
  | _ => cases heq

theorem mem_edges (h : c.Chronicle news) (he : .newCallEdge e ∈ news) :
    e ∈ c.analysis.calls.edges := by
  rw [← h.edges]
  exact List.mem_filterMap.2 ⟨_, he, rfl⟩

/-- The statements that are told of are those of a body. -/
theorem fits (h : c.Chronicle news) {s : StmtId} {m : MethodId} (hs : .newStmt s m ∈ news) :
    (Event.newStmt s m).Fits c.elements := by
  have hmem : Event.newStmt s m ∈ news.filter (Event.isAbout m) :=
    List.mem_filter.2 ⟨hs, decide_eq_true rfl⟩
  rw [h.methods] at hmem
  split at hmem <;> rename_i hm
  · refine ⟨h.built m hm, ?_⟩
    simpa [account] using hmem
  · exact absurd hmem List.not_mem_nil

/-- A method in a context is told of when all statements of its body were. -/
theorem stmt_before (h : c.Chronicle news) {l₁ l₂ : List Event} {s : StmtId} {m : MethodId}
    (hnews : news = l₁ ++ .newStmt s m :: l₂) {x : CtxMethod} (hx : .newCtxMethod x ∈ l₁) :
    x.method ≠ m := by
  rintro rfl
  have habout : (Event.newStmt s x.method).isAbout x.method = true := decide_eq_true rfl
  have hfilter := h.methods x.method
  rw [hnews, List.filter_append, List.filter_cons_of_pos habout] at hfilter
  split at hfilter
  · have hmem : Event.newCtxMethod x ∈ l₁.filter (Event.isAbout x.method) :=
      List.mem_filter.2 ⟨hx, decide_eq_true rfl⟩
    -- the statement is in the first part of the account, or it comes after that part
    rcases append_eq_append_cons hfilter.symm with ⟨k, hk⟩ | ⟨k, -, hk⟩
    · have hbody : Event.newCtxMethod x ∈ Event.newMethod x.method ::
          (c.elements.code x.method).body.map fun s => .newStmt s x.method := by
        rw [hk]
        exact List.mem_append_left _ hmem
      simp at hbody
    · have hcontexts : Event.newStmt s x.method ∈
          (c.analysis.calls.methods.toList.filter fun x' => x'.method = x.method).map
            .newCtxMethod := by
        rw [hk]
        simp
      simp at hcontexts
  · simp at hfilter

/-- No method in a context is told of twice. -/
theorem ctxMethod_fresh (h : c.Chronicle news) {l₁ l₂ : List Event}
    (hnews : news = l₁ ++ .newCtxMethod m :: l₂) : m ∉ l₁.filterMap Event.ctxMethod? := by
  have hnodup : (news.filterMap Event.ctxMethod?).Nodup := by
    rw [h.ctxMethods]
    exact c.analysis.calls.methods.nodup.filter _
  rw [hnews, List.filterMap_append, List.nodup_append] at hnodup
  intro hm
  exact hnodup.2.2 m hm m (by simp [Event.ctxMethod?]) rfl

/-- Events that tell of no call edge can be added as far as callees are concerned. -/
theorem callees_append (h : c.Chronicle news) {more : List Event}
    (hmore : ∀ e, .newCallEdge e ∉ more) :
    ∀ l₁ e l₂, news ++ more = l₁ ++ .newCallEdge e :: l₂ →
      e.callee.method ∈ c.ignored ∨ .newCtxMethod e.callee ∈ l₁ := by
  intro l₁ e l₂ heq
  rcases append_eq_append_cons heq with ⟨k, hk⟩ | ⟨k, -, hk⟩
  · exact h.callees l₁ e k hk
  · exact absurd (by rw [hk]; simp) (hmore e)

theorem opening (h : c.Chronicle news) (hcalls : c.analysis.calls.Consistent)
    (hno : ∀ m, ¬ c.Reaches m) (hpoints : c.SamePoints c')
    (hst : c'.standing = { c.standing with ignored := c'.ignored }) : c'.Chronicle news := by
  have hnil : c.analysis.calls.methods.toList = [] := List.eq_nil_iff_forall_not_mem.2 hno
  have hunseen : ∀ m, m ∉ c.seen := by
    intro m hm
    obtain ⟨-, x, hx, -⟩ := (h.seen m).1 hm
    exact hno x hx
  simp only [standing, Standing.mk.injEq] at hst
  obtain ⟨hmethods, hcalls', -, -, hseen⟩ := hst
  constructor
  · exact fun ctx v => (h.points ctx v).congr (hpoints ctx v)
  · rw [h.edges, CallGraph.edges, CallGraph.edges, hcalls']
  · -- a call edge would have a callee
    intro l₁ e l₂ heq
    have hmem : e ∈ c.analysis.calls.edges := h.mem_edges (by rw [heq]; simp)
    obtain ⟨x, hx, rfl⟩ := List.mem_map.1 hmem
    exact absurd (hcalls.joined x hx).2 (hno _)
  · rw [h.ctxMethods, hmethods, hnil, List.filter_nil, List.filter_nil]
  · intro m
    rw [h.methods, hseen, if_neg (hunseen m), if_neg (hunseen m)]
  · intro m
    simp only [hseen, hunseen, Reaches, Holds, hmethods, false_iff]
    rintro ⟨-, x, hx, -⟩
    exact hno x hx
  · intro m hm
    rw [hseen] at hm
    exact absurd hm (hunseen m)

section

variable (h : c.Chronicle news) (hlocal : c.elements.Local)
  (hevolves : c.elements.Evolves c'.elements)

include h hlocal hevolves

theorem body_eq {m : MethodId} (hm : m ∈ c.seen) :
    (c'.elements.code m).body = (c.elements.code m).body :=
  hevolves.body_eq hlocal (h.built m hm)

theorem quiet (hpoints : c.SamePoints c') (hst : c'.standing = c.standing) : c'.Chronicle news := by
  simp only [standing, Standing.mk.injEq] at hst
  obtain ⟨hmethods, hcalls, -, hignored, hseen⟩ := hst
  constructor
  · exact fun ctx v => (h.points ctx v).congr (hpoints ctx v)
  · rw [h.edges, CallGraph.edges, CallGraph.edges, hcalls]
  · rw [hignored]
    exact h.callees
  · rw [hmethods, hignored, h.ctxMethods]
  · intro m
    rw [h.methods, hseen, hmethods]
    split <;> rename_i hm
    · rw [h.body_eq hlocal hevolves hm]
    · rfl
  · intro m
    simp only [hseen, hignored, h.seen, Reaches, Holds, hmethods]
  · intro m hm
    rw [hseen] at hm
    exact hevolves.isBuilt (h.built m hm)

theorem ignored (hm : ¬ c.Reaches m) (hi : m.method ∈ c.ignored) (hpoints : c.SamePoints c')
    (hst : c'.standing = { c.standing with methods := c.analysis.calls.methods.insert m }) :
    c'.Chronicle news := by
  simp only [standing, Standing.mk.injEq] at hst
  obtain ⟨hmethods, hcalls, -, hignored, hseen⟩ := hst
  have hlist : c'.analysis.calls.methods.toList = c.analysis.calls.methods.toList ++ [m] := by
    rw [hmethods, toList_insert_of_new hm]
  constructor
  · exact fun ctx v => (h.points ctx v).congr (hpoints ctx v)
  · rw [h.edges, CallGraph.edges, CallGraph.edges, hcalls]
  · rw [hignored]
    exact h.callees
  · rw [h.ctxMethods, hlist, hignored, List.filter_append]
    simp [hi]
  · intro m'
    rw [h.methods, hseen, hlist]
    split <;> rename_i hm'
    · have hne : m.method ≠ m' := by
        rintro rfl
        exact ((h.seen _).1 hm').1 hi
      rw [h.body_eq hlocal hevolves hm', account, account, List.filter_append]
      simp [hne]
    · rfl
  · intro m'
    rw [hseen, hignored, h.seen]
    simp only [Reaches, Holds, hmethods, OrderedSet.mem_insert]
    constructor
    · rintro ⟨hi', x, hx, rfl⟩
      exact ⟨hi', x, .inl hx, rfl⟩
    · rintro ⟨hi', x, hx | rfl, rfl⟩
      · exact ⟨hi', x, hx, rfl⟩
      · exact absurd hi hi'
  · intro m' hm'
    rw [hseen] at hm'
    exact hevolves.isBuilt (h.built m' hm')

theorem reached (hm : ¬ c.Reaches m) (hi : m.method ∉ c.ignored)
    (hbuilt : c'.elements.isBuilt m.method = true) (hpoints : c.SamePoints c')
    (hst : c'.standing = { c.standing with
      methods := c.analysis.calls.methods.insert m, seen := c.seen.insert m.method }) :
    c'.Chronicle (news ++ debut m (c'.elements.code m.method).body (m.method ∈ c.seen)) := by
  simp only [standing, Standing.mk.injEq] at hst
  obtain ⟨hmethods, hcalls, -, hignored, hseen⟩ := hst
  have hlist : c'.analysis.calls.methods.toList = c.analysis.calls.methods.toList ++ [m] := by
    rw [hmethods, toList_insert_of_new hm]
  have hreaches : ∀ x, c'.Reaches x ↔ c.Reaches x ∨ x = m := by
    intro x
    simp only [Reaches, Holds, hmethods, OrderedSet.mem_insert]
  set body := (c'.elements.code m.method).body with hbody
  constructor
  · intro ctx v
    rw [List.filterMap_append, filterMap_debut m body _ rfl fun _ => rfl]
    simpa [Event.delta?] using (h.points ctx v).congr (hpoints ctx v)
  · rw [List.filterMap_append, filterMap_debut m body _ rfl fun _ => rfl, h.edges, CallGraph.edges,
      CallGraph.edges, hcalls]
    simp [Event.edge?]
  · rw [hignored]
    apply h.callees_append
    intro e he
    rcases mem_debut m body _ he with heq | ⟨s, -, heq⟩ | heq <;> cases heq
  · rw [List.filterMap_append, filterMap_debut m body _ rfl fun _ => rfl, h.ctxMethods, hlist,
      hignored, List.filter_append]
    simp [Event.ctxMethod?, hi]
  · intro m'
    rw [List.filter_append, filter_debut, h.methods, hlist, hseen]
    by_cases hm' : m.method = m'
    · subst hm'
      rw [if_pos rfl, if_pos (OrderedSet.mem_insert.2 (.inr rfl))]
      by_cases hold : m.method ∈ c.seen
      · -- the method is known: there is one more context
        rw [if_pos hold, ← h.body_eq hlocal hevolves hold, account, account, List.filter_append]
        simp [debut, hold]
      · -- the method is new, so it was not reachable in any context
        have hnone :
            c.analysis.calls.methods.toList.filter (fun x => x.method = m.method) = [] := by
          apply List.filter_eq_nil_iff.2
          intro x hx heq
          exact hold ((h.seen _).2 ⟨hi, x, hx, by simpa using heq⟩)
        rw [if_neg hold, account, List.filter_append, hnone]
        simp [debut, hold, hbody]
    · rw [if_neg hm', List.append_nil]
      have hiff : m' ∈ c.seen.insert m.method ↔ m' ∈ c.seen := by
        rw [OrderedSet.mem_insert]
        exact ⟨fun hx => hx.resolve_right (Ne.symm hm'), .inl⟩
      simp only [hiff]
      split <;> rename_i hold
      · rw [h.body_eq hlocal hevolves hold, account, account, List.filter_append]
        simp [hm']
      · rfl
  · intro m'
    rw [hseen, hignored, OrderedSet.mem_insert, h.seen]
    constructor
    · rintro (⟨hi', x, hx, rfl⟩ | rfl)
      · exact ⟨hi', x, (hreaches x).2 (.inl hx), rfl⟩
      · exact ⟨hi, m, (hreaches m).2 (.inr rfl), rfl⟩
    · rintro ⟨hi', x, hx, rfl⟩
      rcases (hreaches x).1 hx with hx | rfl
      · exact .inl ⟨hi', x, hx, rfl⟩
      · exact .inr rfl
  · intro m' hm'
    rw [hseen] at hm'
    rcases OrderedSet.mem_insert.1 hm' with hm' | rfl
    · exact hevolves.isBuilt (h.built m' hm')
    · exact hbuilt

/-- An event that tells of no method leaves the account of methods alone. -/
theorem methods_concat {x : Event} (hx : ∀ m, x.isAbout m = false) (m : MethodId)
    (hmethods : c'.analysis.calls.methods = c.analysis.calls.methods) (hseen : c'.seen = c.seen) :
    (news ++ [x]).filter (Event.isAbout m) =
      if m ∈ c'.seen then account m (c'.elements.code m).body c'.analysis.calls.methods.toList
      else [] := by
  rw [List.filter_append, h.methods, hmethods, hseen]
  split <;> rename_i hm
  · rw [h.body_eq hlocal hevolves hm]
    simp [hx]
  · simp [hx]

theorem called (hcallee : c.Reaches e.callee) (hpoints : c.SamePoints c')
    (hst : c'.standing = { c.standing with
      calls := c.analysis.calls.calls ++ [(m, e)], pairs := c'.analysis.calls.pairs }) :
    c'.Chronicle (news ++ [.newCallEdge e]) := by
  simp only [standing, Standing.mk.injEq] at hst
  obtain ⟨hmethods, hcalls, -, hignored, hseen⟩ := hst
  constructor
  · intro ctx v
    have hdelta : [Event.newCallEdge e].filterMap (Event.delta? ctx v) = [] := rfl
    rw [List.filterMap_append, hdelta, List.append_nil]
    exact (h.points ctx v).congr (hpoints ctx v)
  · rw [List.filterMap_append, h.edges, CallGraph.edges, CallGraph.edges, hcalls, List.map_append]
    rfl
  · intro l₁ e' l₂ heq
    rw [hignored]
    rcases append_eq_append_cons heq with ⟨k, hk⟩ | ⟨k, hl₁, hk⟩
    · exact h.callees l₁ e' k hk
    · -- the callee was told of, since it is reachable
      obtain ⟨rfl, rfl⟩ : k = [] ∧ e' = e := by
        cases k with
        | nil =>
          cases hk
          exact ⟨rfl, rfl⟩
        | cons x k => simp at hk
      rw [hl₁, List.append_nil]
      by_cases hi : e'.callee.method ∈ c.ignored
      · exact .inl hi
      · exact .inr (h.mem_of_reaches hcallee hi)
  · rw [List.filterMap_append, h.ctxMethods, hmethods, hignored]
    exact List.append_nil _
  · exact fun m => h.methods_concat hlocal hevolves (fun _ => rfl) m hmethods hseen
  · intro m
    simp only [hseen, hignored, h.seen, Reaches, Holds, hmethods]
  · intro m hm
    rw [hseen] at hm
    exact hevolves.isBuilt (h.built m hm)

theorem arrived {ctx : Context} {v : VarId} {delta : PointsToSet} (hnew : ∃ o, o ∈ delta)
    (hdisjoint : ∀ o ∈ delta, ¬ c.Holds (.points (.var ctx v) o))
    (hst : c'.standing = c.standing)
    (hpoints : ∀ ctx' v' o, c'.Holds (.points (.var ctx' v') o) ↔
      c.Holds (.points (.var ctx' v') o) ∨ ctx' = ctx ∧ v' = v ∧ o ∈ delta) :
    c'.Chronicle (news ++ [.newPointsTo ctx v delta]) := by
  simp only [standing, Standing.mk.injEq] at hst
  obtain ⟨hmethods, hcalls, -, hignored, hseen⟩ := hst
  constructor
  · intro ctx' v'
    rw [List.filterMap_append]
    by_cases heq : ctx = ctx' ∧ v = v'
    · obtain ⟨rfl, rfl⟩ := heq
      have hdelta : [Event.newPointsTo ctx v delta].filterMap (Event.delta? ctx v) = [delta] := by
        simp [Event.delta?]
      rw [hdelta]
      refine (h.points ctx v).concat hnew hdisjoint fun o => ?_
      simpa using hpoints ctx v o
    · have hdelta : [Event.newPointsTo ctx v delta].filterMap (Event.delta? ctx' v') = [] := by
        simp [Event.delta?, heq]
      rw [hdelta, List.append_nil]
      refine (h.points ctx' v').congr fun o => (hpoints ctx' v' o).trans ⟨?_, .inl⟩
      rintro (ho | ⟨rfl, rfl, -⟩)
      · exact ho
      · exact absurd ⟨rfl, rfl⟩ heq
  · rw [List.filterMap_append, h.edges, CallGraph.edges, CallGraph.edges, hcalls]
    exact List.append_nil _
  · rw [hignored]
    exact h.callees_append (by simp)
  · rw [List.filterMap_append, h.ctxMethods, hmethods, hignored]
    exact List.append_nil _
  · exact fun m => h.methods_concat hlocal hevolves (fun _ => rfl) m hmethods hseen
  · intro m
    simp only [hseen, hignored, h.seen, Reaches, Holds, hmethods]
  · intro m hm
    rw [hseen] at hm
    exact hevolves.isBuilt (h.built m hm)

/-- What happens next is told at the end. -/
theorem append (hcalls : c.analysis.calls.Consistent) {more : List Event} (hmore : News c c' more) :
    c'.Chronicle (news ++ more) := by
  cases hmore with
  | quiet standing points =>
    rw [List.append_nil]
    exact h.quiet hlocal hevolves points standing
  | opening hno points standing =>
    rw [List.append_nil]
    exact h.opening hcalls hno points standing
  | ignored hm hi points standing =>
    rw [List.append_nil]
    exact h.ignored hlocal hevolves hm hi points standing
  | reached hm hi built points standing =>
    exact h.reached hlocal hevolves hm hi built points standing
  | called _ hcallee points standing => exact h.called hlocal hevolves hcallee points standing
  | arrived hnew hdisjoint standing points =>
    exact h.arrived hlocal hevolves hnew hdisjoint standing points

end

/-- Before the run there is nothing to tell. -/
theorem nil (hno : ∀ f, ¬ c.Holds f) (hseen : ∀ m, m ∉ c.seen) : c.Chronicle [] := by
  have hmethods : c.analysis.calls.methods.toList = [] :=
    List.eq_nil_iff_forall_not_mem.2 fun m => hno (.reach m)
  have hcalls : c.analysis.calls.calls = [] :=
    List.eq_nil_iff_forall_not_mem.2 fun x => hno (.edge x.1 x.2)
  constructor
  · intro ctx v
    refine ⟨by simp, by simp, fun o => ?_⟩
    simp [hno]
  · simp [CallGraph.edges, hcalls]
  · intro l₁ e l₂ heq
    simp at heq
  · simp [hmethods]
  · intro m
    simp [hseen]
  · intro m
    simp only [hseen, false_iff]
    rintro ⟨-, x, hx, -⟩
    exact hno _ hx
  · exact fun m hm => absurd hm (hseen m)

end Chronicle

/-- The events are a faithful log of what was found. -/
structure Faithful (c : Core) (events : List Event) : Prop where
  /-- The deltas of a variable in a context are not empty, do not overlap, and make up its points-to
  set. -/
  points : ∀ ctx v, Deltas (events.filterMap (Event.delta? ctx v)) fun o =>
    o ∈ c.pointsTo (.var ctx v)
  /-- Each call edge is told once, in the order of the call graph. -/
  edges : events.filterMap Event.edge? = c.analysis.calls.edges ∧ c.analysis.calls.edges.Nodup
  /-- A call edge is told after the method that it leads to. -/
  callees : ∀ l₁ e l₂, events = l₁ ++ .newCallEdge e :: l₂ → .newCtxMethod e.callee ∈ l₁
  /-- Each method in a context is told once, and no other. -/
  ctxMethods : events.filterMap Event.ctxMethod? = c.analysis.calls.methods.toList
  /-- Of a reachable method it is told that it is reachable, then the statements of its body are
  told in order, and then its contexts. Of other methods nothing is told. -/
  methods : ∀ m, events.filter (Event.isAbout m) =
    if m ∈ c.analysis.reachableMethods then
      account m (c.elements.code m).body c.analysis.calls.methods.toList
    else []

theorem filterMap_news {β : Type} {f : Event → Option β} (hf : ∀ x, x.isNews = false → f x = none)
    (events : List Event) : (events.filter Event.isNews).filterMap f = events.filterMap f := by
  induction events with
  | nil => rfl
  | cons x events ih =>
    cases hx : x.isNews with
    | true => simp [hx, List.filterMap_cons, ih]
    | false => simp [hx, ih, hf x hx]

/-- Nothing is lost in passing over what is no news. -/
theorem Chronicle.faithful {c : Core} {events : List Event}
    (h : c.Chronicle (events.filter Event.isNews)) (hcalls : c.analysis.calls.Consistent)
    (hi : c.ignored = ∅) : c.Faithful events := by
  have hnone : ∀ m, m ∉ c.ignored := fun m => hi ▸ OrderedSet.not_mem_empty m
  constructor
  · intro ctx v
    have hpoints := h.points ctx v
    rw [filterMap_news] at hpoints
    · exact hpoints
    · intro x hx
      cases x with
      | newPointsTo => cases hx
      | _ => rfl
  · constructor
    · rw [← h.edges, filterMap_news]
      intro x hx
      cases x with
      | newCallEdge => cases hx
      | _ => rfl
    · -- no two edges have the same call site and callee
      have hmap : (c.analysis.calls.calls.map fun x => (x.2.site, x.2.callee)) =
          c.analysis.calls.edges.map fun e => (e.site, e.callee) := by
        simp [CallGraph.edges]
      have hdistinct := hcalls.distinct
      rw [hmap] at hdistinct
      refine List.Pairwise.of_map (fun e => (e.site, e.callee)) ?_ hdistinct
      rintro e e' hne rfl
      exact hne rfl
  · rintro l₁ e l₂ rfl
    have hfilter : (l₁ ++ .newCallEdge e :: l₂).filter Event.isNews =
        l₁.filter Event.isNews ++ .newCallEdge e :: l₂.filter Event.isNews := by
      rw [List.filter_append, List.filter_cons_of_pos rfl]
    rcases h.callees _ _ _ hfilter with hi' | hmem
    · exact absurd hi' (hnone _)
    · exact (List.mem_filter.1 hmem).1
  · have hctx := h.ctxMethods
    rw [filterMap_news] at hctx
    · rw [hctx]
      exact List.filter_eq_self.2 fun x _ => by simpa using hnone x.method
    · intro x hx
      cases x with
      | newCtxMethod => cases hx
      | _ => rfl
  · intro m
    have habout : events.filter (Event.isAbout m) =
        (events.filter Event.isNews).filter (Event.isAbout m) := by
      rw [List.filter_filter]
      apply List.filter_congr
      intro x _
      cases x <;> simp [Event.isAbout, Event.isNews]
    have hreachable : m ∈ c.seen ↔ m ∈ c.analysis.reachableMethods := by
      rw [h.seen, Analysis.mem_reachableMethods]
      constructor
      · rintro ⟨-, x, hx, hm⟩
        exact ⟨x, hx, hm⟩
      · rintro ⟨x, hx, hm⟩
        exact ⟨hnone m, x, hx, hm⟩
    rw [habout, h.methods]
    simp only [hreachable]

end Core

/-! ### Runs -/

namespace Solver

variable {P : Plugin} {I : P.Memory → Prop} {s s' : Solver P} {t : Task} {ts rest : List Task}
  {log : List Announcement} {journal : List String} {fuel : Nat}

/-- Every turn adds to the chronicle what has happened. -/
theorem Regular.chronicle (h : s.Regular I (t :: rest))
    (hc : s.core.Chronicle (tale log (t :: rest))) (hturn : Turn s s' t ts) :
    s'.core.Chronicle (tale (log ++ s.announced t) (ts ++ rest)) := by
  obtain ⟨news, hnews, htale⟩ := h.news log hturn
  rw [htale]
  exact hc.append h.timely.tables hturn.evolves h.wellFormed.calls hnews

theorem chronicle_create (P : Plugin) (e : Elements) (journal : List String)
    (entries : List MethodId) (policy : ContextPolicy) (order : WorklistOrder) :
    (create P e journal entries policy order).core.Chronicle [] := by
  refine .nil (fun f hf => ?_) fun m hm => OrderedSet.not_mem_empty m hm
  cases f with
  | reach m => exact OrderedSet.not_mem_empty m hf
  | site m x => exact List.not_mem_nil hf
  | edge m x => exact List.not_mem_nil hf
  | points p o => exact OrderedSet.not_mem_empty o hf
  | flow a b => exact absurd hf Bool.false_ne_true

/-- What holds in every moment of a run with a plugin that observes: it was told all there is to
tell, and has no other memory and has written no more than comes from this. -/
structure Observed (journal : List String) (s : Solver P) (tasks : List Task)
    (log : List Announcement) : Prop where
  regular : s.Regular (fun _ => True) tasks
  chronicle : s.core.Chronicle (tale log tasks)
  ignored_eq : s.core.ignored = ∅
  attended : (s.memory, s.core.journal) = log.foldl P.attend (P.memory, journal)

namespace Observed

theorem perform (hP : P.Observes) (h : Observed journal s (t :: rest) log)
    (hp : s.perform t = (s', .ok ts)) :
    Observed journal s' (ts ++ rest) (log ++ s.announced t) := by
  obtain ⟨hturn, -⟩ := h.regular.turn hP.local hp
  refine ⟨h.regular.perform hP.local hp, h.regular.chronicle h.chronicle hturn, ?_, ?_⟩
  · cases hturn with
    | announce hs => rw [hs, (announce_attend hP s _).2, h.ignored_eq]
    | move _ _ move => rw [move.ignored_eq, h.ignored_eq]
  · rw [List.foldl_append, ← h.attended]
    cases hturn with
    | announce hs => rw [hs, (announce_attend hP s _).1]
    | move ht memory_eq move =>
      rw [memory_eq, move.journal_eq, s.announced_eq_nil ht]
      rfl

theorem settle (hP : P.Observes) {agenda : List Task} (h : Observed journal s agenda log)
    (hs : s.settle fuel agenda = (s', .done ())) :
    Observed journal s' [] (log ++ s.announcements fuel agenda) :=
  settle_announcements (fun h hp => h.perform hP hp) h hs

/-- A run that has come to rest can be taken up again. -/
theorem resume (h : Observed journal s [] log) (ht : 3 ≤ t.level) (hnews : pendingNews [t] = []) :
    Observed journal s [t] log := by
  refine ⟨h.regular.resume ht, ?_, h.ignored_eq, h.attended⟩
  rw [tale, hnews]
  exact h.chronicle

end Observed

/-! ### Steps -/

/-- The announcements that a step makes. -/
def stepAnnouncements (fuel : Nat) (s : Solver P) : List Announcement :=
  s.announcements fuel [.begin] ++ (s.start fuel).1.announcements fuel [.next]

/-- `s` comes from `s₀` by steps that succeed, in the course of which `log` was announced. -/
inductive Walks (s₀ : Solver P) : Solver P → List Announcement → Prop
  | refl : Walks s₀ s₀ []
  | step {s s' : Solver P} {log : List Announcement} {fuel : Nat} {more : Bool}
      (h : Walks s₀ s log) (hs : s.step fuel = (s', .done more)) :
      Walks s₀ s' (log ++ s.stepAnnouncements fuel)

/-- A step that succeeds starts the run if need be, and takes up an item. -/
theorem step_done {more : Bool} (h : s.step fuel = (s', .done more)) :
    ∃ s₁, s.start fuel = (s₁, .done ()) ∧ s₁.settle fuel [.next] = (s', .done ()) := by
  unfold step at h
  split at h <;> rename_i s₁ hstart
  · refine ⟨s₁, hstart, ?_⟩
    simp only at h
    split at h <;> rename_i hnext <;> cases h
    exact hnext
  · cases h
  · cases h

instance (v : Verdict Bool) (more : Bool) : Decidable (v = .done more) :=
  match v with
  | .done more' => decidable_of_iff (more' = more) (by simp)
  | .failed _ => .isFalse nofun
  | .unfinished => .isFalse nofun

/-- One more step that succeeds. -/
theorem Walks.step_of_done {s₀ : Solver P} {more : Bool} (h : s₀.Walks s log)
    (hs : (s.step fuel).2 = .done more) :
    s₀.Walks (s.step fuel).1 (log ++ s.stepAnnouncements fuel) :=
  h.step (Prod.ext rfl hs)

theorem Observed.step (hP : P.Observes) (h : Observed journal s [.begin] log) {more : Bool}
    (hs : s.step fuel = (s', .done more)) :
    Observed journal s' [.begin] (log ++ s.stepAnnouncements fuel) := by
  obtain ⟨s₁, hstart, hnext⟩ := step_done hs
  have h₁ := (h.settle hP hstart).resume (t := .next) (by decide) rfl
  have h₂ := (h₁.settle hP hnext).resume (t := .begin) (by decide) rfl
  rw [stepAnnouncements, hstart, ← List.append_assoc]
  exact h₂

theorem Walks.observed (hP : P.Observes) {s₀ : Solver P} (h₀ : Observed journal s₀ [.begin] [])
    (h : s₀.Walks s log) : Observed journal s [.begin] log := by
  induction h with
  | refl => exact h₀
  | step _ hs ih => exact ih.step hP hs

theorem observed_create (hP : P.Observes) {p : Program} {e : Elements}
    (he : ({ program := p } : Elements).Evolves e) (journal : List String) (entries : List MethodId)
    (policy : ContextPolicy) :
    Observed journal (create P e journal entries policy .fifo) [.begin] [] := by
  exact ⟨regular_create hP.local he journal entries policy (List.forall_mem_nil _),
    chronicle_create .., rfl, rfl⟩

/-- **The event stream is a faithful log of the run.** If all plugins only observe and the oldest
item is taken up first, then after any number of steps that succeed the announced events are a
faithful log of what was found. Each event was handed to the plugins one after the other, in their
order: their memories and the journal come from this, and from nothing else. -/
theorem walks_faithful (ps : List Plugin) (hps : ∀ p ∈ ps, p.Observes) {p : Program} {e : Elements}
    (he : ({ program := p } : Elements).Evolves e) (journal : List String) (entries : List MethodId)
    (policy : ContextPolicy) {s : Solver (.sequence ps)} {log : List Announcement}
    (h : (create (.sequence ps) e journal entries policy .fifo).Walks s log) :
    s.core.Faithful (log.map Announcement.event) ∧
      (s.memory, s.core.journal) = log.foldl (fun state x =>
        let told := Plugin.relay x.event x.view ps state.1
        (told.1, state.2 ++ told.2)) ((Plugin.sequence ps).memory, journal) := by
  have hobserves := Plugin.Observes.sequence hps
  have hend := h.observed hobserves (observed_create hobserves he journal entries policy)
  constructor
  · have hchronicle := hend.chronicle
    rw [tale, show pendingNews [.begin] = [] from rfl, List.append_nil] at hchronicle
    exact hchronicle.faithful hend.regular.wellFormed.calls hend.ignored_eq
  · rw [hend.attended]
    congr 1
    funext state x
    rw [Plugin.attend, Plugin.hear_sequence hps]

end Solver

/-- Two recorders: one is told everything, the other asks for methods only. -/
def Plugin.recorders : List Plugin :=
  [recorder "all" EventKind.all, recorder "methods" [.method]]

/-- The solver with the two recorders, before its run. -/
def Solver.recorded : Solver (.sequence Plugin.recorders) :=
  .create (.sequence Plugin.recorders) { program := Problem.visitor.program } [] [⟨0⟩] .insensitive
    .fifo

/-- In the first two steps a call edge is recorded. -/
theorem Solver.walks_faithful_recorders :
    ∃ s log, recorded.Walks s log ∧ s.core.analysis.calls.edges.length = 1 ∧
      s.core.Faithful (log.map Announcement.event) := by
  have hps : ∀ p ∈ Plugin.recorders, p.Observes := by
    simp [Plugin.recorders, Plugin.observes_recorder]
  have h₁ : (recorded.step 50).2 = .done true := by decide +kernel
  have h₂ : ((recorded.step 50).1.step 50).2 = .done true := by decide +kernel
  have hedges : ((recorded.step 50).1.step 50).1.core.analysis.calls.edges.length = 1 := by
    decide +kernel
  have hwalks := (Walks.refl.step_of_done h₁).step_of_done h₂
  have hfaithful := walks_faithful _ hps .refl [] [⟨0⟩] .insensitive hwalks
  exact ⟨_, _, hwalks, hedges, hfaithful.1⟩

end PointsTo
