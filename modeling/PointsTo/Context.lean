import PointsTo.Code.Basic
import PointsTo.ContextPolicy
import PointsTo.OrderedSet

/-!
# Contexts

A context is a list of call sites or allocation sites, the most recent one last. Methods and
objects are told apart by contexts.

* `Obj` is an abstract object: an allocation and the context in which it is made;
* `ContextPolicy.calleeContext` and `ContextPolicy.heapContext` choose the contexts of callees and
  of objects;
* `Contexts` collects the contexts in use; the empty one is always there and comes first;
* `Contexts.get`, `Contexts.append` and `Contexts.truncate` give the numbers of contexts, and
  `Contexts.select` and `Contexts.selectHeap` make the choices of a policy on numbers.
-/

namespace PointsTo

/-- One element of a context. -/
inductive ContextElement where
  | call (site : SiteId)
  | alloc (stmt : StmtId)
deriving DecidableEq

/-- A context, with the most recent element last. -/
abbrev Context := List ContextElement

/-- The last `limit` elements of a context. -/
def Context.suffix (c : Context) (limit : Nat) : Context :=
  c.drop (c.length - limit)

/-- A context followed by one more element, of which the last `limit` elements are kept. -/
def Context.append (c : Context) (e : ContextElement) (limit : Nat) : Context :=
  Context.suffix (c ++ [e]) limit

namespace Context

theorem suffix_nil (n : Nat) : suffix [] n = [] := List.drop_nil

theorem suffix_zero (c : Context) : c.suffix 0 = [] := List.drop_length

theorem suffix_suffix {i j : Nat} (h : j ≤ i) (c : Context) :
    (c.suffix i).suffix j = c.suffix j := by
  simp only [suffix, List.length_drop, List.drop_drop]
  congr 1
  omega

/-- An element is appended to as much of the context as is kept besides it. -/
theorem append_suffix {i j : Nat} (h : j ≤ i + 1) (c : Context) (e : ContextElement) :
    (c.suffix i).append e j = c.append e j := by
  simp only [append, suffix, List.length_append, List.length_singleton, List.length_drop,
    List.drop_append, List.drop_drop]
  congr 2 <;> omega

end Context

/-- An abstract object: all objects made at one allocation in one context. -/
structure Obj where
  site : StmtId
  heap : Context
deriving DecidableEq

namespace ContextPolicy

/-- The context of a callee that is called at `site` in the context `caller`, on the object
`receiver` if the call was dispatched. -/
def calleeContext (policy : ContextPolicy) (caller : Context) (site : SiteId)
    (receiver : Option Obj) : Context :=
  match policy, receiver with
  | .insensitive, _ => []
  | .callSite k, _ => caller.append (.call site) k
  | .object k, some o => o.heap.append (.alloc o.site) k
  | .object _, none => caller

/-- The context of an object that a method makes in the context `c`. -/
def heapContext (policy : ContextPolicy) (c : Context) : Context :=
  match policy with
  | .insensitive => []
  | .callSite k | .object k => c.suffix (k - 1)

end ContextPolicy

/-- The contexts in use, in order of their first use. -/
structure Contexts where
  set : OrderedSet Context
  head_eq : set.toList.head? = some []

namespace Contexts

instance : Inhabited Contexts := ⟨⟨.singleton [], rfl⟩⟩

/-- Only the empty context is in use. -/
def initial : Contexts := ⟨.singleton [], rfl⟩

/-- The contexts in use when `c` is used. -/
def use (t : Contexts) (c : Context) : Contexts :=
  ⟨t.set.insert c, by
    rw [OrderedSet.toList_insert]
    split
    · exact t.head_eq
    · rw [List.head?_append, t.head_eq]; rfl⟩

/-- The number of contexts. -/
def size (t : Contexts) : Nat := t.set.size

/-- The number of a context. -/
def index? (t : Contexts) (c : Context) : Option Nat := t.set.index? c

/-- The context with a number. -/
def at? (t : Contexts) (i : Nat) : Option Context := t.set.at? i

/-- The elements of the context with a number; there are none if the number is not in use. -/
def elements (t : Contexts) (i : Nat) : Context := (t.at? i).getD []

/-- The number of a context, which is brought into use. -/
def get (t : Contexts) (c : Context) : Nat × Contexts :=
  (((t.use c).index? c).getD 0, t.use c)

/-- The number of a context followed by one more element, of which the last `limit` elements are
kept. -/
def append (t : Contexts) (parent : Nat) (e : ContextElement) (limit : Nat) : Nat × Contexts :=
  t.get ((t.elements parent).append e limit)

/-- The number of the last `limit` elements of a context. One that is short enough stays. -/
def truncate (t : Contexts) (i limit : Nat) : Nat × Contexts :=
  if (t.elements i).length ≤ limit then (i, t) else t.get ((t.elements i).suffix limit)

/-- The number of the context that a policy chooses for a callee. The receiver is given by its
allocation and the number of its context. -/
def select (t : Contexts) (policy : ContextPolicy) (caller : Nat) (site : SiteId)
    (receiver : Option (StmtId × Nat)) : Nat × Contexts :=
  match policy, receiver with
  | .insensitive, _ => (0, t)
  | .callSite k, _ => t.append caller (.call site) k
  | .object k, some (alloc, heap) => t.append heap (.alloc alloc) k
  | .object _, none => (caller, t)

/-- The number of the context that a policy chooses for an object made in a context. -/
def selectHeap (t : Contexts) (policy : ContextPolicy) (i : Nat) : Nat × Contexts :=
  match policy with
  | .insensitive => (0, t)
  | .callSite k | .object k => t.truncate i (k - 1)

end Contexts

end PointsTo
