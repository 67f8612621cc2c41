import PointsTo.CallGraph.Basic

/-!
# Consistent call graphs

The parts of a call graph agree with each other (`CallGraph.Consistent`): the set of pairs and the
table of callees say what the edges say, no two edges have the same call site and callee, and
entries, callers and callees are methods of the graph. The empty graph is consistent, and every way
to extend a graph keeps it so, hence every graph that is made of the empty one (`CallGraph.grown`).
The edges of a consistent graph are known by their ends (`CallGraph.links`): it has as many edges as
pairs of a call site and a callee.
-/

namespace PointsTo.CallGraph

variable {σ μ : Type} [DecidableEq σ] [DecidableEq μ]

/-- The parts of the graph agree with each other. -/
structure Consistent (g : CallGraph σ μ) : Prop where
  recorded : ∀ s m, g.hasEdge s m = true ↔ ∃ x ∈ g.calls, x.2.site = s ∧ x.2.callee = m
  indexed : ∀ s m, m ∈ g.calleesOf s ↔ g.hasEdge s m = true
  distinct : (g.calls.map fun x => (x.2.site, x.2.callee)).Nodup
  entered : ∀ m ∈ g.entries, m ∈ g.methods
  joined : ∀ x ∈ g.calls, x.1 ∈ g.methods ∧ x.2.callee ∈ g.methods

variable {g g' : CallGraph σ μ} {caller m : μ} {e : CallEdge σ μ}

/-! ### Parts of a graph with one more edge -/

theorem mem_calls_addEdge {x : μ × CallEdge σ μ} :
    x ∈ (g.addEdge caller e).calls ↔
      x ∈ g.calls ∨ g.hasEdge e.site e.callee = false ∧ x = (caller, e) := by
  unfold addEdge
  split <;> simp_all

theorem mem_calleesOf_addEdge {s : σ} :
    m ∈ (g.addEdge caller e).calleesOf s ↔
      m ∈ g.calleesOf s ∨ g.hasEdge e.site e.callee = false ∧ s = e.site ∧ m = e.callee := by
  have hd : (∅ : OrderedSet μ) = default := rfl
  unfold addEdge
  split <;> rename_i hnew
  · simp [hnew]
  · simp only [calleesOf, hd, Table.get_update_default, Bool.eq_false_iff.2 hnew, true_and]
    by_cases hs : s = e.site
    · subst hs; simp
    · simp [hs]

theorem mem_methods_addEdge :
    m ∈ (g.addEdge caller e).methods ↔
      m ∈ g.methods ∨ g.hasEdge e.site e.callee = false ∧ (m = caller ∨ m = e.callee) := by
  cases hnew : g.hasEdge e.site e.callee with
  | true => simp [addEdge, hnew]
  | false => simp [methods_addEdge hnew, or_assoc]

theorem sitesIn_addEdge (m : μ) : (g.addEdge caller e).sitesIn m = g.sitesIn m := by
  unfold addEdge
  split <;> rfl

theorem entries_addEdge : (g.addEdge caller e).entries = g.entries := by
  unfold addEdge
  split <;> rfl

omit [DecidableEq σ] in
theorem sitesIn_addSite (s : σ) (m' : μ) :
    (g.addSite m s).sitesIn m' = if m' = m then g.sitesIn m' ++ [s] else g.sitesIn m' := by
  have hd : ([] : List σ) = default := rfl
  simp only [addSite, sitesIn, hd, Table.get_update_default]
  split <;> simp_all

/-! ### Consistency -/

theorem consistent_empty : (∅ : CallGraph σ μ).Consistent where
  recorded _ _ := ⟨fun h => absurd h Bool.false_ne_true, fun ⟨_, hx, _⟩ => nomatch hx⟩
  indexed _ m := ⟨fun h => absurd h (OrderedSet.not_mem_empty m), fun h => nomatch h⟩
  distinct := List.nodup_nil
  entered _ h := nomatch h
  joined _ h := nomatch h

/-- A graph with the same edges and further methods is consistent if its entries are methods. -/
theorem Consistent.of_calls_eq (h : g.Consistent) (hcalls : g'.calls = g.calls)
    (hcallees : g'.callees = g.callees) (hpairs : g'.pairs = g.pairs)
    (hmethods : ∀ m ∈ g.methods, m ∈ g'.methods)
    (hentered : ∀ m ∈ g'.entries, m ∈ g'.methods) : g'.Consistent where
  recorded s m := by
    rw [hcalls, ← h.recorded, hasEdge, hasEdge, hpairs]
  indexed s m := by
    rw [calleesOf, hcallees, ← calleesOf, h.indexed, hasEdge, hasEdge, hpairs]
  distinct := by
    rw [hcalls]
    exact h.distinct
  entered := hentered
  joined x hx := by
    rw [hcalls] at hx
    exact (h.joined x hx).imp (hmethods _) (hmethods _)

theorem Consistent.addMethod (h : g.Consistent) (m : μ) : (g.addMethod m).Consistent := by
  have hmono : ∀ m' ∈ g.methods, m' ∈ (g.addMethod m).methods := by
    intro m' hm'
    rw [methods_addMethod]
    exact OrderedSet.mem_insert.2 (.inl hm')
  exact h.of_calls_eq rfl rfl rfl hmono fun m' hm' => hmono m' (h.entered m' hm')

theorem Consistent.addSite (h : g.Consistent) (m : μ) (s : σ) : (g.addSite m s).Consistent :=
  h.of_calls_eq rfl rfl rfl (fun _ => id) h.entered

theorem Consistent.addEntry (h : g.Consistent) (m : μ) : (g.addEntry m).Consistent := by
  have hmem : ∀ m', m' ∈ (g.addEntry m).methods ↔ m' ∈ g.methods ∨ m' = m := by
    intro m'
    rw [methods_addEntry, OrderedSet.mem_insert]
  refine h.of_calls_eq rfl rfl rfl (fun m' hm' => (hmem m').2 (.inl hm')) fun m' hm' => ?_
  rcases List.mem_append.1 hm' with hm' | hm'
  · exact (hmem m').2 (.inl (h.entered m' hm'))
  · exact (hmem m').2 (.inr (List.mem_singleton.1 hm'))

theorem Consistent.addEdge (h : g.Consistent) (caller : μ) (e : CallEdge σ μ) :
    (g.addEdge caller e).Consistent where
  recorded s m := by
    simp only [hasEdge_addEdge, mem_calls_addEdge]
    constructor
    · rintro (hs | ⟨rfl, rfl⟩)
      · obtain ⟨x, hx, h'⟩ := (h.recorded s m).1 hs
        exact ⟨x, .inl hx, h'⟩
      · cases hnew : g.hasEdge e.site e.callee with
        | true =>
          obtain ⟨x, hx, h'⟩ := (h.recorded _ _).1 hnew
          exact ⟨x, .inl hx, h'⟩
        | false => exact ⟨(caller, e), .inr ⟨rfl, rfl⟩, rfl, rfl⟩
    · rintro ⟨x, hx | ⟨-, rfl⟩, rfl, rfl⟩
      · exact .inl ((h.recorded _ _).2 ⟨x, hx, rfl, rfl⟩)
      · exact .inr ⟨rfl, rfl⟩
  indexed s m := by
    cases hnew : g.hasEdge e.site e.callee with
    | true =>
      rw [addEdge_of_hasEdge hnew]
      exact h.indexed s m
    | false =>
      rw [mem_calleesOf_addEdge, hasEdge_addEdge, h.indexed]
      simp [hnew]
  distinct := by
    unfold CallGraph.addEdge
    split <;> rename_i hnew
    · exact h.distinct
    · rw [List.map_append, List.nodup_append]
      refine ⟨h.distinct, by simp, ?_⟩
      rintro x hx y hy rfl
      obtain ⟨z, hz, rfl⟩ := List.mem_map.1 hx
      simp only [List.map_cons, List.map_nil, List.mem_singleton, Prod.mk.injEq] at hy
      exact hnew ((h.recorded _ _).2 ⟨z, hz, hy⟩)
  entered m hm := by
    rw [entries_addEdge] at hm
    exact mem_methods_addEdge.2 (.inl (h.entered m hm))
  joined x hx := by
    simp only [mem_methods_addEdge]
    rcases mem_calls_addEdge.1 hx with hx | ⟨hnew, rfl⟩
    · exact (h.joined x hx).imp .inl .inl
    · exact ⟨.inr ⟨hnew, .inl rfl⟩, .inr ⟨hnew, .inr rfl⟩⟩

/-- What every extension by a member of a list keeps, the extension by all of them keeps. -/
theorem Consistent.foldl {β : Type} {f : CallGraph σ μ → β → CallGraph σ μ}
    (hf : ∀ g b, g.Consistent → (f g b).Consistent) (h : g.Consistent) (l : List β) :
    (l.foldl f g).Consistent := by
  induction l generalizing g with
  | nil => exact h
  | cons b l ih => exact ih (hf g b h)

/-! ### Graphs made of nothing -/

/-- One way to extend a call graph. -/
inductive Change (σ μ : Type) where
  | entry (m : μ)
  | method (m : μ)
  | site (m : μ) (s : σ)
  | edge (caller : μ) (e : CallEdge σ μ)

/-- The graph after a change. -/
def changed (g : CallGraph σ μ) : Change σ μ → CallGraph σ μ
  | .entry m => g.addEntry m
  | .method m => g.addMethod m
  | .site m s => g.addSite m s
  | .edge caller e => g.addEdge caller e

/-- The graph that changes make of the empty one. -/
def grown (l : List (Change σ μ)) : CallGraph σ μ := l.foldl changed ∅

theorem Consistent.changed (h : g.Consistent) (x : Change σ μ) : (g.changed x).Consistent := by
  cases x with
  | entry m => exact h.addEntry m
  | method m => exact h.addMethod m
  | site m s => exact h.addSite m s
  | edge caller e => exact h.addEdge caller e

theorem consistent_grown (l : List (Change σ μ)) : (grown l).Consistent :=
  consistent_empty.foldl (fun _ x h => h.changed x) l

/-! ### The ends of edges -/

/-- The call sites of the edges with their callees. -/
def links (g : CallGraph σ μ) : List (σ × μ) := g.calls.map fun x => (x.2.site, x.2.callee)

omit [DecidableEq σ] [DecidableEq μ] in
theorem length_links (g : CallGraph σ μ) : g.links.length = g.edgeCount := List.length_map _

theorem Consistent.mem_links (h : g.Consistent) {s : σ} {m : μ} :
    (s, m) ∈ g.links ↔ m ∈ g.calleesOf s := by
  rw [h.indexed, h.recorded]
  simp [links]

/-- The number of edges depends on the callees of the call sites only. -/
theorem Consistent.edgeCount_eq (h : g.Consistent) (h' : g'.Consistent)
    (hcallees : ∀ s m, m ∈ g'.calleesOf s ↔ m ∈ g.calleesOf s) : g'.edgeCount = g.edgeCount := by
  rw [← length_links, ← length_links]
  refine List.Perm.length_eq ((List.perm_ext_iff_of_nodup h'.distinct h.distinct).2 fun x => ?_)
  exact h'.mem_links.trans ((hcallees x.1 x.2).trans h.mem_links.symm)

end PointsTo.CallGraph
