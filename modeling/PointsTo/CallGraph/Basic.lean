import PointsTo.CallKind
import PointsTo.OrderedSet
import PointsTo.Search
import PointsTo.Table

/-!
# Call graphs

A call graph has methods as nodes and calls as edges; both only ever grow. It is used over plain
methods and over methods in contexts, so call sites and methods are of any types `σ` and `μ`.

* `CallGraph.Nodes` is the list of methods with a map from methods to positions; the map answers
  whether a method is there;
* `CallGraph.addEntry`, `CallGraph.addMethod`, `CallGraph.addSite` and `CallGraph.addEdge` extend a
  graph;
* an edge is known by its call site and its callee: the pairs that were seen are kept, and a second
  edge with the same two is dropped;
* `CallGraph.discover` and `CallGraph.accept` add a method or an edge and say whether it is new;
* `CallGraph.reachableFrom` lists the methods that calls lead to, breadth first.
-/

namespace PointsTo

/-- A call at `site` that reaches `callee`. -/
structure CallEdge (σ μ : Type) where
  kind : CallKind
  site : σ
  callee : μ
deriving DecidableEq

/-- The methods of a call graph: a list in order of discovery and a map to the positions in it. -/
structure CallGraph.Nodes (μ : Type) where
  list : List μ := []
  positions : Table μ Nat := ∅
  positions_eq : positions.entries = list.zipIdx := by rfl

/-- A call graph. -/
structure CallGraph (σ μ : Type) where
  /-- The methods. -/
  nodes : CallGraph.Nodes μ := {}
  /-- The entry methods in the order in which they were added, with repetitions. -/
  entries : List μ := []
  /-- The call sites recorded for each method, with repetitions. -/
  sites : Table μ (List σ) := ∅
  /-- The edges in order of acceptance, each with its caller. -/
  calls : List (μ × CallEdge σ μ) := []
  /-- The callees of each call site. -/
  callees : Table σ (OrderedSet μ) := ∅
  /-- The call sites of the edges with their callees. -/
  pairs : OrderedSet (σ × μ) := ∅

namespace CallGraph

namespace Nodes

variable {μ : Type}

theorem keys_positions (n : Nodes μ) : n.positions.keys = n.list := by
  rw [Table.keys, n.positions_eq, List.zipIdx_map_fst]

theorem nodup_list (n : Nodes μ) : n.list.Nodup := n.keys_positions ▸ n.positions.nodup

variable [DecidableEq μ]

/-- The nodes with `m`, which comes last unless it has a position. -/
def add (n : Nodes μ) (m : μ) : Nodes μ :=
  if h : n.positions.contains m then n
  else
    { list := n.list ++ [m]
      positions := n.positions.insert m n.list.length
      positions_eq := by
        rw [Table.contains_iff] at h
        rw [Table.entries_insert_of_not_mem h, n.positions_eq, List.zipIdx_append, Nat.zero_add]
        rfl }

theorem contains_positions_iff {n : Nodes μ} {m : μ} :
    n.positions.contains m = true ↔ m ∈ n.list := by
  rw [Table.contains_iff, keys_positions]

theorem find?_positions_eq_some_iff {n : Nodes μ} {m : μ} {i : Nat} :
    n.positions.find? m = some i ↔ n.list[i]? = some m := by
  rw [Table.find?_eq_some_iff, n.positions_eq, List.mem_zipIdx_iff_getElem?]

theorem list_add (n : Nodes μ) (m : μ) :
    (n.add m).list = if m ∈ n.list then n.list else n.list ++ [m] := by
  unfold add
  split <;> rename_i h
  · rw [if_pos (contains_positions_iff.1 h)]
  · rw [if_neg (mt contains_positions_iff.2 h)]

end Nodes

variable {σ μ : Type}

instance : EmptyCollection (CallGraph σ μ) := ⟨{}⟩

instance : Inhabited (CallGraph σ μ) := ⟨∅⟩

/-- The methods in order of discovery. -/
def methods (g : CallGraph σ μ) : OrderedSet μ := ⟨g.nodes.list, g.nodes.nodup_list⟩

/-- The edges in order of acceptance. -/
def edges (g : CallGraph σ μ) : List (CallEdge σ μ) := g.calls.map Prod.snd

/-- The number of methods. -/
def methodCount (g : CallGraph σ μ) : Nat := g.methods.size

/-- The number of edges. -/
def edgeCount (g : CallGraph σ μ) : Nat := g.calls.length

section Methods

variable [DecidableEq μ] {g : CallGraph σ μ} {m : μ}

/-- The position of a method in the graph. -/
def position? (g : CallGraph σ μ) (m : μ) : Option Nat := g.nodes.positions.find? m

/-- Whether `m` is a method of the graph. -/
def contains (g : CallGraph σ μ) (m : μ) : Bool := g.nodes.positions.contains m

/-- The graph with the method `m`. -/
def addMethod (g : CallGraph σ μ) (m : μ) : CallGraph σ μ :=
  { g with nodes := g.nodes.add m }

/-- The graph with the entry method `m`. -/
def addEntry (g : CallGraph σ μ) (m : μ) : CallGraph σ μ :=
  { g with entries := g.entries ++ [m] }.addMethod m

/-- Adds a method; the answer says whether it is new. -/
def discover (g : CallGraph σ μ) (m : μ) : Bool × CallGraph σ μ :=
  (!g.contains m, g.addMethod m)

theorem position?_eq_some_iff {i : Nat} : g.position? m = some i ↔ g.methods.at? i = some m :=
  Nodes.find?_positions_eq_some_iff

theorem contains_iff : g.contains m = true ↔ m ∈ g.methods := Nodes.contains_positions_iff

theorem addMethod_of_mem (h : m ∈ g.methods) : g.addMethod m = g := by
  rw [addMethod, Nodes.add, dif_pos (Nodes.contains_positions_iff.2 h)]

@[simp] theorem methods_addMethod : (g.addMethod m).methods = g.methods.insert m := by
  refine OrderedSet.ext_toList ?_
  rw [OrderedSet.toList_insert]
  exact g.nodes.list_add m

@[simp] theorem methods_addEntry : (g.addEntry m).methods = g.methods.insert m := methods_addMethod

/-- The call sites recorded for a method. -/
def sitesIn (g : CallGraph σ μ) (m : μ) : List σ := g.sites.get m

/-- The graph with one more call site recorded for `m`. -/
def addSite (g : CallGraph σ μ) (m : μ) (s : σ) : CallGraph σ μ :=
  { g with sites := g.sites.update m [] (· ++ [s]) }

@[simp] theorem methods_addSite {s : σ} : (g.addSite m s).methods = g.methods := rfl

/-- The methods that a method calls, from the newest edge to the oldest. -/
def successors (g : CallGraph σ μ) (m : μ) : List μ :=
  (g.calls.reverse.filter fun c => c.1 = m).map fun c => c.2.callee

/-- The methods that calls lead to from `root`, breadth first; none if `root` is not a method of
the graph. -/
def reachableFrom (g : CallGraph σ μ) (root : μ) : List μ :=
  if g.contains root then Search.breadthFirst g.successors g.methodCount [root] else []

end Methods

section Edges

variable [DecidableEq σ]

/-- The callees of a call site. -/
def calleesOf (g : CallGraph σ μ) (s : σ) : OrderedSet μ := g.callees.get s

variable [DecidableEq μ] {g : CallGraph σ μ} {caller m : μ} {e : CallEdge σ μ} {s : σ}

/-- Whether there is an edge from the call site `s` to `m`. -/
def hasEdge (g : CallGraph σ μ) (s : σ) (m : μ) : Bool := (s, m) ∈ g.pairs

/-- The graph with the edge `e` from `caller`, unless its pair of call site and callee was seen. -/
def addEdge (g : CallGraph σ μ) (caller : μ) (e : CallEdge σ μ) : CallGraph σ μ :=
  if g.hasEdge e.site e.callee then g
  else
    { (g.addMethod caller).addMethod e.callee with
      calls := g.calls ++ [(caller, e)]
      callees := g.callees.update e.site ∅ (·.insert e.callee)
      pairs := g.pairs.insert (e.site, e.callee) }

/-- Adds an edge; the answer says whether it is new. -/
def accept (g : CallGraph σ μ) (caller : μ) (e : CallEdge σ μ) : Bool × CallGraph σ μ :=
  (!g.hasEdge e.site e.callee, g.addEdge caller e)

/-- A second edge with the same call site and callee changes nothing. -/
theorem addEdge_of_hasEdge (h : g.hasEdge e.site e.callee = true) : g.addEdge caller e = g :=
  if_pos h

/-- The methods of a graph that takes a new edge. -/
theorem methods_addEdge (h : g.hasEdge e.site e.callee = false) :
    (g.addEdge caller e).methods = (g.methods.insert caller).insert e.callee := by
  rw [addEdge, if_neg (Bool.eq_false_iff.1 h)]
  exact methods_addMethod.trans (by rw [methods_addMethod])

theorem hasEdge_iff : g.hasEdge s m = true ↔ (s, m) ∈ g.pairs := decide_eq_true_iff

theorem hasEdge_addEdge :
    (g.addEdge caller e).hasEdge s m = true ↔
      g.hasEdge s m = true ∨ s = e.site ∧ m = e.callee := by
  unfold addEdge
  split <;> rename_i h
  · refine ⟨.inl, fun h' => h'.elim id ?_⟩
    rintro ⟨rfl, rfl⟩
    exact h
  · simp only [hasEdge_iff, OrderedSet.mem_insert, Prod.mk.injEq]

end Edges

end CallGraph

end PointsTo
