import PointsTo.Proofs.CallGraph.Distance

/-!
# Views of a call graph

Whatever is added to a call graph, in whatever order, its parts tell the same story. Of the edges
that were asked for, those with a new pair of call site and callee are accepted
(`CallGraph.accepted`), and everything else follows from these:

* `CallGraph.calls_grown`: they are the edges of the graph, in this order;
* `CallGraph.mem_methods_grown`: its methods are those that were added, and the ends of its edges;
* `CallGraph.Agrees` and `CallGraph.Finds`: what the views of a graph and its search answer;
* `CallGraph.agrees_and_finds`: for all changes.
-/

namespace PointsTo.CallGraph

variable {σ μ : Type}

/-- The edge that a change asks for, with its caller. -/
def Change.request? : Change σ μ → Option (μ × CallEdge σ μ)
  | .edge caller e => some (caller, e)
  | .entry _ | .method _ | .site _ _ => none

variable [DecidableEq σ] [DecidableEq μ]

/-- The edges that are accepted: of those with the same call site and callee, the first one. -/
def accepted (l : List (Change σ μ)) : List (μ × CallEdge σ μ) :=
  (l.filterMap Change.request?).eraseDupsBy fun x y =>
    (x.2.site, x.2.callee) == (y.2.site, y.2.callee)

/-- An accepted edge leads from `m` to `m'`. -/
def Leads (l : List (Change σ μ)) (m m' : μ) : Prop :=
  ∃ x ∈ accepted l, x.1 = m ∧ x.2.callee = m'

/-- The views of the graph that changes make of the empty one agree. -/
structure Agrees (l : List (Change σ μ)) : Prop where
  methods_nodup : (grown l).methods.toList.Nodup
  /-- The map of methods knows those on the list, by their positions. -/
  contains : ∀ m, (grown l).contains m = true ↔ m ∈ (grown l).methods
  position : ∀ m i, (grown l).position? m = some i ↔ (grown l).methods.toList[i]? = some m
  mem_methods : ∀ m, m ∈ (grown l).methods ↔
    .entry m ∈ l ∨ .method m ∈ l ∨ ∃ x ∈ accepted l, m = x.1 ∨ m = x.2.callee
  edges_eq : (grown l).edges = (accepted l).map Prod.snd
  edges_nodup : ((grown l).edges.map fun e => (e.site, e.callee)).Nodup
  /-- The set of pairs, the table of callees and the edges say the same. -/
  mem_callees : ∀ s m, m ∈ (grown l).calleesOf s ↔ (grown l).hasEdge s m = true
  mem_edges : ∀ s m, (∃ e ∈ (grown l).edges, e.site = s ∧ e.callee = m) ↔
    (grown l).hasEdge s m = true
  edgeCount_eq : (grown l).edgeCount = (grown l).edges.length
  methodCount_eq : (grown l).methodCount = (grown l).methods.toList.length
  /-- An edge is accepted if and only if its pair is new. -/
  accept : ∀ caller e, ((grown l).accept caller e).1 = true ↔
    ∀ e' ∈ (grown l).edges, (e'.site, e'.callee) ≠ (e.site, e.callee)
  accept_true : ∀ caller e, ((grown l).accept caller e).1 = true →
    ((grown l).accept caller e).2.edges = (grown l).edges ++ [e]
  accept_false : ∀ caller e, ((grown l).accept caller e).1 = false →
    ((grown l).accept caller e).2 = grown l

/-- The search from a method finds what the accepted edges lead to. -/
structure Finds (l : List (Change σ μ)) (root : μ) : Prop where
  absent : root ∉ (grown l).methods → (grown l).reachableFrom root = []
  mem : root ∈ (grown l).methods → ∀ m,
    m ∈ (grown l).reachableFrom root ↔ Relation.ReflTransGen (Leads l) root m
  first : root ∈ (grown l).methods → ((grown l).reachableFrom root).head? = some root
  nodup : ((grown l).reachableFrom root).Nodup
  sorted : ((grown l).reachableFrom root).Pairwise fun m m' =>
    Search.distance (Leads l) root m ≤ Search.distance (Leads l) root m'

variable {l : List (Change σ μ)} {m : μ}

theorem grown_concat (l : List (Change σ μ)) (x : Change σ μ) :
    grown (l ++ [x]) = (grown l).changed x :=
  List.foldl_concat changed ∅ x l

/-- The edges of a graph are those that were accepted. -/
theorem calls_grown (l : List (Change σ μ)) : (grown l).calls = accepted l := by
  induction l using List.reverseRecOn with
  | nil => rfl
  | append_singleton l x ih =>
    rw [grown_concat]
    unfold accepted
    rw [List.filterMap_append]
    cases x with
    | entry m | method m | site m s =>
      simp only [List.filterMap_cons, Change.request?, List.filterMap_nil, List.append_nil]
      exact ih
    | edge caller e =>
      simp only [List.filterMap_cons, Change.request?, List.filterMap_nil, eraseDupsBy_concat]
      rw [← accepted, ← ih]
      -- the set of pairs answers whether the pair is among the edges
      have hpair : ((grown l).calls.any fun y =>
          (e.site, e.callee) == (y.2.site, y.2.callee)) = (grown l).hasEdge e.site e.callee := by
        rw [Bool.eq_iff_iff, (consistent_grown l).recorded]
        simp only [List.any_eq_true, beq_iff_eq, Prod.mk.injEq]
        exact exists_congr fun y => and_congr_right fun _ => and_congr eq_comm eq_comm
      rw [hpair]
      simp only [changed, addEdge]
      split <;> rfl

theorem mem_methods_grown (l : List (Change σ μ)) (m : μ) :
    m ∈ (grown l).methods ↔
      .entry m ∈ l ∨ .method m ∈ l ∨ ∃ x ∈ (grown l).calls, m = x.1 ∨ m = x.2.callee := by
  induction l using List.reverseRecOn with
  | nil =>
    refine ⟨fun h => absurd h (OrderedSet.not_mem_empty m), ?_⟩
    rintro (h | h | ⟨x, h, -⟩) <;> exact absurd h List.not_mem_nil
  | append_singleton l x ih =>
    rw [grown_concat]
    simp only [List.mem_append, List.mem_singleton]
    cases x with
    | entry m' =>
      show m ∈ ((grown l).addEntry m').methods ↔ _ ∨ _ ∨ ∃ x ∈ (grown l).calls, _
      rw [methods_addEntry, OrderedSet.mem_insert, ih]
      simp only [reduceCtorEq, Change.entry.injEq, or_false]
      exact or_right_comm
    | method m' =>
      show m ∈ ((grown l).addMethod m').methods ↔ _ ∨ _ ∨ ∃ x ∈ (grown l).calls, _
      rw [methods_addMethod, OrderedSet.mem_insert, ih, or_assoc]
      simp only [reduceCtorEq, Change.method.injEq, or_false]
      exact or_congr_right or_right_comm
    | site m' s =>
      simp only [reduceCtorEq, or_false]
      exact ih
    | edge caller e =>
      simp only [reduceCtorEq, or_false, changed, mem_methods_addEdge, mem_calls_addEdge, ih]
      cases (grown l).hasEdge e.site e.callee with
      | true => simp
      | false =>
        simp only [true_and, or_and_right, exists_or, exists_eq_left, or_assoc]

theorem agrees (l : List (Change σ μ)) : Agrees l := by
  have hgraph := consistent_grown l
  have hpair : ∀ s m, (∃ e ∈ (grown l).edges, e.site = s ∧ e.callee = m) ↔
      (grown l).hasEdge s m = true := by
    intro s m
    rw [hgraph.recorded, edges]
    simp only [List.mem_map, exists_exists_and_eq_and]
  constructor
  case methods_nodup => exact (grown l).methods.nodup
  case contains => exact fun m => contains_iff
  case position => exact fun m i => position?_eq_some_iff
  case mem_methods =>
    rw [← calls_grown]
    exact mem_methods_grown l
  case edges_eq => rw [edges, calls_grown]
  case edges_nodup =>
    rw [edges, List.map_map]
    exact hgraph.distinct
  case mem_callees => exact hgraph.indexed
  case mem_edges => exact hpair
  case edgeCount_eq => exact (List.length_map _).symm
  case methodCount_eq => rfl
  case accept =>
    intro caller e
    show (!(grown l).hasEdge e.site e.callee) = true ↔ _
    rw [Bool.not_eq_true', ← Bool.not_eq_true, ← hpair]
    simp only [not_exists, not_and, ne_eq, Prod.mk.injEq]
  case accept_true =>
    intro caller e h
    have hnew : (grown l).hasEdge e.site e.callee = false := (Bool.not_eq_true' _).mp h
    simp [CallGraph.accept, addEdge, edges, hnew]
  case accept_false =>
    intro caller e h
    have hold : (grown l).hasEdge e.site e.callee = true := (Bool.not_eq_false' _).mp h
    exact if_pos hold

theorem finds (l : List (Change σ μ)) (root : μ) : Finds l root := by
  have hleads : Leads l = (grown l).Calls := by
    funext m m'
    rw [Leads, ← calls_grown, Calls]
    refine propext ⟨?_, ?_⟩
    · rintro ⟨⟨_, e⟩, he, rfl, rfl⟩
      exact ⟨e, he, rfl⟩
    · rintro ⟨e, he, rfl⟩
      exact ⟨(m, e), he, rfl, rfl⟩
  constructor
  case absent => exact fun h => if_neg (mt contains_iff.1 h)
  case mem =>
    intro h m
    rw [mem_reachableFrom (consistent_grown l), hleads]
    exact and_iff_right h
  case first => exact head?_reachableFrom
  case nodup => exact nodup_reachableFrom _ root
  case sorted =>
    rw [hleads]
    exact pairwise_reachableFrom _ root

/-- Whatever is asked of a call graph: its methods are those that were added and the ends of
accepted edges, each once; its edges are the accepted ones, in this order, and known by their call
sites and callees, as are the pairs and the callees on record; the answer to a request for an edge
says whether it was new, and otherwise nothing changes. A search from a method lists what the
accepted edges lead to, each once, the nearest first. -/
theorem agrees_and_finds (l : List (Change σ μ)) : Agrees l ∧ ∀ root, Finds l root :=
  ⟨agrees l, finds l⟩

end PointsTo.CallGraph
