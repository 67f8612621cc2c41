import Mathlib.Tactic.Set
import PointsTo.Analysis
import PointsTo.Proofs.CallGraph.Consistent

/-!
# The call graph without contexts

What `Analysis.methodGraph` makes of a call graph whose edges and call sites are at home
(`Analysis.Located`): the methods, call sites and edges are those of the call graph over methods in
contexts, with the contexts left out.

* `Analysis.mem_methods_methodGraph`, `Analysis.mem_sitesIn_methodGraph` and
  `Analysis.mem_calls_methodGraph` say what is in it;
* `Analysis.consistent_methodGraph`: it is consistent.
-/

namespace PointsTo

/-! ### Lists and folds -/

/-- Of the members of a list with the same key, one is left. -/
theorem eraseDupsBy_spec {α β : Type} [DecidableEq β] (k : α → β) (l : List α) :
    ((l.eraseDupsBy fun x y => k x == k y).map k).Nodup ∧
      (∀ x ∈ l.eraseDupsBy fun x y => k x == k y, x ∈ l) ∧
      ∀ x ∈ l, ∃ y ∈ l.eraseDupsBy fun x y => k x == k y, k y = k x := by
  cases l with
  | nil => simp
  | cons a l =>
    rw [List.eraseDupsBy_cons]
    -- the rest of the list without the members that have the key of `a`
    set rest := l.filter fun b => decide ((k b == k a) = false)
    have hrest : ∀ x, x ∈ rest ↔ x ∈ l ∧ k x ≠ k a := fun x => by simp [rest]
    obtain ⟨hnodup, hsub, hex⟩ := eraseDupsBy_spec k rest
    refine ⟨?_, List.forall_mem_cons.2 ⟨List.mem_cons_self, fun x hx => ?_⟩, fun x hx => ?_⟩
    · rw [List.map_cons, List.nodup_cons]
      refine ⟨fun ha => ?_, hnodup⟩
      obtain ⟨b, hb, heq⟩ := List.mem_map.1 ha
      exact ((hrest b).1 (hsub b hb)).2 heq
    · exact List.mem_cons_of_mem a ((hrest x).1 (hsub x hx)).1
    · by_cases hxa : k x = k a
      · exact ⟨a, List.mem_cons_self, hxa.symm⟩
      · have hx : x ∈ l := (List.mem_cons.1 hx).resolve_left fun h => hxa (h ▸ rfl)
        obtain ⟨y, hy, hyx⟩ := hex x ((hrest x).2 ⟨hx, hxa⟩)
        exact ⟨y, List.mem_cons_of_mem a hy, hyx⟩
termination_by l.length
decreasing_by
  have hlen := List.length_filter_le (fun b => decide ((k b == k a) = false)) l
  rw [List.length_cons]
  omega

/-- A further member is left at the end, unless it is a repetition. -/
theorem eraseDupsBy_concat {α : Type} (r : α → α → Bool) (l : List α) (a : α) :
    (l ++ [a]).eraseDupsBy r =
      if (l.eraseDupsBy r).any (r a) then l.eraseDupsBy r else l.eraseDupsBy r ++ [a] := by
  have hloop : ∀ l bs, List.eraseDupsBy.loop r (l ++ [a]) bs =
      if (List.eraseDupsBy.loop r l bs).any (r a) then List.eraseDupsBy.loop r l bs
      else List.eraseDupsBy.loop r l bs ++ [a] := by
    intro l
    induction l with
    | nil =>
      intro bs
      simp only [List.nil_append, List.eraseDupsBy.loop, List.any_reverse]
      cases bs.any (r a) <;> simp
    | cons b l ih =>
      intro bs
      cases hb : bs.any (r b) <;> simp only [List.cons_append, List.eraseDupsBy.loop, hb] <;>
        exact ih _
  exact hloop l []

/-- What each member of a list may add, the whole list adds. -/
theorem foldl_iff {α β : Type} {V : α → Prop} {P : β → Prop} {f : α → β → α}
    (h : ∀ a b, V (f a b) ↔ V a ∨ P b) (l : List β) (a : α) :
    V (l.foldl f a) ↔ V a ∨ ∃ b ∈ l, P b := by
  induction l generalizing a with
  | nil => simp
  | cons b l ih =>
    rw [List.foldl_cons, ih, h, or_assoc]
    simp

/-- What each member of a list leaves alone, the whole list does. -/
theorem foldl_eq {α β γ : Type} {V : α → γ} {f : α → β → α} (h : ∀ a b, V (f a b) = V a)
    (l : List β) (a : α) : V (l.foldl f a) = V a := by
  induction l generalizing a with
  | nil => rfl
  | cons b l ih => rw [List.foldl_cons, ih, h]

namespace CallGraph

variable {σ μ : Type} [DecidableEq σ] [DecidableEq μ] {g : CallGraph σ μ}

omit [DecidableEq σ] in
theorem sitesIn_foldl_addSite (l : List (μ × σ)) (m : μ) :
    (l.foldl (fun g s => g.addSite s.1 s.2) g).sitesIn m =
      g.sitesIn m ++ (l.filter fun x => x.1 = m).map Prod.snd := by
  induction l generalizing g with
  | nil => simp
  | cons x l ih =>
    rw [List.foldl_cons, ih, sitesIn_addSite]
    by_cases hx : x.1 = m
    · simp [hx]
    · have hx' : m ≠ x.1 := fun h => hx h.symm
      simp [hx, hx']

/-- Edges between methods of the graph bring no new ones. -/
theorem mem_methods_foldl_addEdge {β : Type} {caller : β → μ} {edge : β → CallEdge σ μ} {l : List β}
    (h : ∀ b ∈ l, caller b ∈ g.methods ∧ (edge b).callee ∈ g.methods) (m : μ) :
    m ∈ (l.foldl (fun g b => g.addEdge (caller b) (edge b)) g).methods ↔ m ∈ g.methods := by
  induction l generalizing g with
  | nil => rfl
  | cons b l ih =>
    have hb := h b List.mem_cons_self
    rw [List.foldl_cons, ih fun b' hb' => ?_, mem_methods_addEdge]
    · refine ⟨fun hm => hm.elim id ?_, .inl⟩
      rintro ⟨-, rfl | rfl⟩
      · exact hb.1
      · exact hb.2
    · simp only [mem_methods_addEdge]
      exact (h b' (List.mem_cons_of_mem b hb')).imp .inl .inl

/-- The edges of a graph to which edges were added are old ones, or among those added. -/
theorem mem_calls_foldl_addEdge {β : Type} {caller : β → μ} {edge : β → CallEdge σ μ} {l : List β}
    {x : μ × CallEdge σ μ}
    (h : x ∈ (l.foldl (fun g b => g.addEdge (caller b) (edge b)) g).calls) :
    x ∈ g.calls ∨ ∃ b ∈ l, x = (caller b, edge b) := by
  induction l generalizing g with
  | nil => exact .inl h
  | cons b l ih =>
    rcases ih h with hx | ⟨b', hb', hx⟩
    · refine (mem_calls_addEdge.1 hx).imp_right fun hx => ⟨b, List.mem_cons_self, hx.2⟩
    · exact .inr ⟨b', List.mem_cons_of_mem b hb', hx⟩

end CallGraph

namespace Analysis

/-- The call graph is consistent, the caller of an edge and the method of a call site are those that
the site belongs to, and the kind of an edge depends on its site alone. -/
structure Located (a : Analysis) : Prop where
  consistent : a.calls.Consistent
  edge_home : ∀ m e, (m, e) ∈ a.calls.calls → m = ⟨e.site.ctx, e.site.site.method⟩
  site_home : ∀ m, ∀ s ∈ a.calls.sitesIn m, m = ⟨s.ctx, s.site.method⟩
  kind_eq : ∀ x ∈ a.calls.calls, ∀ y ∈ a.calls.calls, x.2.site.site = y.2.site.site →
    x.2.kind = y.2.kind

variable {a : Analysis}

theorem mem_reachableMethods {m : MethodId} :
    m ∈ a.reachableMethods ↔ ∃ x ∈ a.calls.methods, x.method = m := by
  rw [reachableMethods, List.mem_eraseDups, List.mem_map]
  rfl

/-- An edge with the contexts left out. -/
def plainEdge (e : CtxEdge) : CallEdge SiteId MethodId := ⟨e.kind, e.site.site, e.callee.method⟩

/-- The methods of the graph without contexts. -/
def methodsGraph (a : Analysis) : MethodGraph :=
  a.reachableMethods.foldl CallGraph.addMethod
    (a.calls.entries.foldl (fun g m => g.addEntry m.method) ∅)

/-- The methods and call sites of the graph without contexts. -/
def sitesGraph (a : Analysis) : MethodGraph :=
  a.recordedSites.foldl (fun g s => g.addSite s.1 s.2) a.methodsGraph

theorem methodGraph_eq (a : Analysis) :
    a.methodGraph =
      a.calls.edges.foldl (fun g e => g.addEdge e.site.site.method (plainEdge e)) a.sitesGraph :=
  rfl

theorem calls_sitesGraph (a : Analysis) : a.sitesGraph.calls = [] := by
  refine (foldl_eq (V := CallGraph.calls) (by intros; rfl) _ _).trans ?_
  refine (foldl_eq (V := CallGraph.calls) (by intros; rfl) _ _).trans ?_
  exact foldl_eq (V := CallGraph.calls) (by intros; rfl) _ _

theorem consistent_sitesGraph (a : Analysis) : a.sitesGraph.Consistent := by
  refine .foldl (fun _ s h => h.addSite s.1 s.2) ?_ _
  refine .foldl (fun _ m h => h.addMethod m) ?_ _
  exact .foldl (fun _ m h => h.addEntry m.method) CallGraph.consistent_empty _

theorem consistent_methodGraph (a : Analysis) : a.methodGraph.Consistent :=
  .foldl (fun _ e h => h.addEdge e.site.site.method (plainEdge e)) a.consistent_sitesGraph _

/-! ### Entries and methods -/

theorem entries_methodGraph (a : Analysis) :
    a.methodGraph.entries = a.calls.entries.map CtxMethod.method := by
  have hentries : ∀ (l : List CtxMethod) (g : MethodGraph),
      (l.foldl (fun g m => g.addEntry m.method) g).entries =
        g.entries ++ l.map CtxMethod.method := by
    intro l g
    induction l generalizing g with
    | nil => simp
    | cons m l ih =>
      rw [List.foldl_cons, ih]
      simp [CallGraph.addEntry, CallGraph.addMethod]
  refine (foldl_eq (V := CallGraph.entries) (fun _ _ => CallGraph.entries_addEdge) _ _).trans ?_
  refine (foldl_eq (V := CallGraph.entries) (by intros; rfl) _ _).trans ?_
  exact (foldl_eq (V := CallGraph.entries) (by intros; rfl) _ _).trans (hentries _ ∅)

theorem mem_methods_sitesGraph (h : a.Located) {m : MethodId} :
    m ∈ a.sitesGraph.methods ↔ ∃ x ∈ a.calls.methods, x.method = m := by
  have hsites : a.sitesGraph.methods = a.methodsGraph.methods :=
    foldl_eq (V := CallGraph.methods) (by intros; rfl) _ _
  rw [hsites, methodsGraph,
    foldl_iff (V := fun g : MethodGraph => m ∈ g.methods) (P := (m = ·))
      fun g m' => by simp,
    foldl_iff (V := fun g : MethodGraph => m ∈ g.methods) (P := fun x => m = x.method)
      fun g x => by simp]
  simp only [mem_reachableMethods]
  constructor
  · rintro ((hm | ⟨x, hx, rfl⟩) | ⟨_, hm, rfl⟩)
    · exact absurd hm (OrderedSet.not_mem_empty m)
    · exact ⟨x, h.consistent.entered x hx, rfl⟩
    · exact hm
  · exact fun hm => .inr ⟨m, hm, rfl⟩

/-- The methods are those that are reachable in some context. -/
theorem mem_methods_methodGraph (h : a.Located) {m : MethodId} :
    m ∈ a.methodGraph.methods ↔ ∃ x ∈ a.calls.methods, x.method = m := by
  rw [methodGraph_eq, CallGraph.mem_methods_foldl_addEdge, mem_methods_sitesGraph h]
  intro e he
  obtain ⟨⟨x, e⟩, hx, rfl⟩ := List.mem_map.1 he
  obtain ⟨hcaller, hcallee⟩ := h.consistent.joined _ hx
  rw [mem_methods_sitesGraph h, mem_methods_sitesGraph h]
  refine ⟨⟨x, hcaller, ?_⟩, e.callee, hcallee, rfl⟩
  rw [h.edge_home x e hx]

/-! ### Call sites -/

theorem mem_recordedSites (h : a.Located) {m : MethodId} {s : SiteId} :
    (m, s) ∈ a.recordedSites ↔
      ∃ x ∈ a.calls.methods, ∃ t ∈ a.calls.sitesIn x, x.method = m ∧ t.site = s := by
  set all := a.calls.methods.toList.flatMap fun m =>
    (a.calls.sitesIn m).map fun s => (m.method, s.site)
  have hall : ∀ y, y ∈ all ↔
      ∃ x ∈ a.calls.methods, ∃ t ∈ a.calls.sitesIn x, (x.method, t.site) = y := fun y => by
    simp only [all, List.mem_flatMap, List.mem_map]
    rfl
  -- a call site is recorded for its own method only, so that it stands for the pair
  have hfst : ∀ y ∈ all, y.1 = y.2.method := fun y hy => by
    obtain ⟨x, -, t, ht, rfl⟩ := (hall y).1 hy
    rw [h.site_home x t ht]
  obtain ⟨-, hsub, hex⟩ := eraseDupsBy_spec Prod.snd all
  have hmem : (m, s) ∈ a.recordedSites ↔ (m, s) ∈ all := by
    refine ⟨hsub (m, s), fun hms => ?_⟩
    obtain ⟨⟨m', s'⟩, hy, rfl⟩ := hex (m, s) hms
    obtain rfl : m' = m := (hfst _ (hsub _ hy)).trans (hfst _ hms).symm
    exact hy
  rw [hmem, hall]
  simp only [Prod.mk.injEq]

theorem sitesIn_methodGraph (a : Analysis) (m : MethodId) :
    a.methodGraph.sitesIn m = (a.recordedSites.filter fun x => x.1 = m).map Prod.snd := by
  have hnone : a.methodsGraph.sitesIn m = [] :=
    (foldl_eq (V := (CallGraph.sitesIn · m)) (by intros; rfl) _ _).trans
      (foldl_eq (V := (CallGraph.sitesIn · m)) (by intros; rfl) _ _)
  have hsites : a.methodGraph.sitesIn m = a.sitesGraph.sitesIn m :=
    foldl_eq (V := (CallGraph.sitesIn · m)) (fun _ _ => CallGraph.sitesIn_addEdge m) _ _
  rw [hsites, sitesGraph, CallGraph.sitesIn_foldl_addSite, hnone, List.nil_append]

/-- The call sites of a method are those that are recorded for it in some context. -/
theorem mem_sitesIn_methodGraph (h : a.Located) {m : MethodId} {s : SiteId} :
    s ∈ a.methodGraph.sitesIn m ↔
      ∃ x ∈ a.calls.methods, ∃ t ∈ a.calls.sitesIn x, x.method = m ∧ t.site = s := by
  rw [sitesIn_methodGraph, ← mem_recordedSites h]
  simp

theorem nodup_sitesIn_methodGraph (a : Analysis) (m : MethodId) :
    (a.methodGraph.sitesIn m).Nodup := by
  rw [sitesIn_methodGraph]
  exact (eraseDupsBy_spec Prod.snd _).1.sublist (List.filter_sublist.map Prod.snd)

/-! ### Edges -/

/-- Every call has its edge, unless there is one with the same call site and callee. -/
theorem hasEdge_methodGraph {x : CtxMethod × CtxEdge} (hx : x ∈ a.calls.calls) :
    a.methodGraph.hasEdge x.2.site.site x.2.callee.method = true := by
  rw [methodGraph_eq, foldl_iff
    (V := fun g : MethodGraph => g.hasEdge x.2.site.site x.2.callee.method = true)
    (P := fun e => x.2.site.site = e.site.site ∧ x.2.callee.method = e.callee.method)
    fun _ _ => CallGraph.hasEdge_addEdge]
  exact .inr ⟨x.2, List.mem_map_of_mem hx, rfl, rfl⟩

/-- The edges are those of some context. -/
theorem mem_calls_methodGraph (h : a.Located) {m : MethodId} {e : CallEdge SiteId MethodId} :
    (m, e) ∈ a.methodGraph.calls ↔
      ∃ x ∈ a.calls.calls, x.1.method = m ∧ plainEdge x.2 = e := by
  have hsource : ∀ y ∈ a.methodGraph.calls,
      ∃ x ∈ a.calls.calls, y = (x.1.method, plainEdge x.2) := by
    intro y hy
    rw [methodGraph_eq] at hy
    rcases CallGraph.mem_calls_foldl_addEdge hy with hy | ⟨_, he, rfl⟩
    · rw [calls_sitesGraph] at hy
      exact absurd hy List.not_mem_nil
    · obtain ⟨⟨x, e⟩, hx, rfl⟩ := List.mem_map.1 he
      refine ⟨(x, e), hx, ?_⟩
      rw [h.edge_home x e hx]
  constructor
  · intro hm
    obtain ⟨x, hx, heq⟩ := hsource _ hm
    obtain ⟨rfl, rfl⟩ := Prod.mk.inj heq
    exact ⟨x, hx, rfl, rfl⟩
  · rintro ⟨⟨x, e⟩, hx, rfl, rfl⟩
    obtain ⟨y, hy, hsite, hcallee⟩ :=
      (a.consistent_methodGraph.recorded _ _).1 (hasEdge_methodGraph hx)
    -- the edge that is there comes from the same call site, so it is of the same kind
    obtain ⟨⟨x', e'⟩, hx', rfl⟩ := hsource y hy
    have hkind : e'.kind = e.kind := h.kind_eq _ hx' _ hx hsite
    have hedge : plainEdge e' = plainEdge e := by
      simp only [plainEdge] at hsite hcallee ⊢
      rw [hkind, hsite, hcallee]
    have hcaller : x'.method = x.method := by
      rw [h.edge_home x e hx, h.edge_home x' e' hx']
      exact congrArg SiteId.method hsite
    rwa [hedge, hcaller] at hy

end Analysis

end PointsTo
