import PointsTo.OrderedSet
import PointsTo.Table

/-!
# Flow graphs

A directed graph without parallel edges. Between pointers, an edge from `a` to `b` says that
whatever `a` refers to, `b` refers to as well.
-/

namespace PointsTo

/-- A directed graph: the successors of every node. -/
structure FlowGraph (α : Type) where
  succs : Table α (OrderedSet α) := ∅

namespace FlowGraph

variable {α : Type}

instance : EmptyCollection (FlowGraph α) := ⟨{}⟩

/-- The nodes in order of insertion. -/
def nodes (g : FlowGraph α) : List α := g.succs.keys

/-- All edges. -/
def edges (g : FlowGraph α) : List (α × α) :=
  g.succs.entries.flatMap fun (a, bs) => bs.toList.map fun b => (a, b)

/-- The number of nodes. -/
def nodeCount (g : FlowGraph α) : Nat := g.succs.size

/-- The number of edges. -/
def edgeCount (g : FlowGraph α) : Nat := g.edges.length

variable [DecidableEq α]

/-- The successors of a node. -/
def succsOf (g : FlowGraph α) (a : α) : OrderedSet α := g.succs.get a

/-- Whether there is an edge from `a` to `b`. -/
def hasEdge (g : FlowGraph α) (a b : α) : Bool := b ∈ g.succsOf a

/-- Whether `a` is a node. -/
def hasNode (g : FlowGraph α) (a : α) : Bool := g.succs.contains a

/-- The graph with the node `a`. -/
def addNode (g : FlowGraph α) (a : α) : FlowGraph α := ⟨g.succs.insert a ∅⟩

/-- The graph with an edge from `a` to `b`. -/
def addEdge (g : FlowGraph α) (a b : α) : FlowGraph α :=
  ⟨((g.addNode a).addNode b).succs.modify a (·.insert b)⟩

theorem hasEdge_iff {g : FlowGraph α} {a b : α} : g.hasEdge a b = true ↔ b ∈ g.succsOf a :=
  decide_eq_true_iff

theorem hasEdge_addEdge {g : FlowGraph α} {a b x y : α} :
    (g.addEdge a b).hasEdge x y = true ↔ g.hasEdge x y = true ∨ x = a ∧ y = b := by
  have hd : (∅ : OrderedSet α) = default := rfl
  simp only [hasEdge_iff, succsOf, addEdge, addNode, hd, Table.get_modify, Table.mem_keys_insert,
    Table.get_insert_default]
  by_cases hx : x = a
  · subst hx; simp
  · simp [hx]

end FlowGraph

end PointsTo
