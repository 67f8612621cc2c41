import PointsTo.Context
import PointsTo.Proofs.Code.Edits

/-!
# Numbers of contexts

Contexts are used by their numbers, which are given out in order of first use. Whatever is asked of
the contexts in use, a number stands for one context, and keeps it.

* `Context.IsLast`: the last elements of a context, without reference to how they are cut off;
* `Contexts.Denotes`: what a number stands for, and `Contexts.Interns`: how numbers and contexts
  belong together (`Contexts.interns_contexts`);
* `Contexts.denotes_select` and `Contexts.denotes_selectHeap`: on numbers, a policy makes the
  choices that it makes on contexts;
* `Contexts.follow`: the context at the end of a chain of calls (`Contexts.tracksCalls`).
-/

namespace PointsTo

namespace Context

variable {c : Context} {n : Nat}

/-- `d` consists of the last `n` elements of `c`, or of all if there are no more. -/
def IsLast (n : Nat) (c d : Context) : Prop := d <:+ c ∧ d.length = min n c.length

theorem length_suffix (c : Context) (n : Nat) : (c.suffix n).length = min n c.length := by
  rw [suffix, List.length_drop]
  omega

theorem isLast_suffix (n : Nat) (c : Context) : IsLast n c (c.suffix n) :=
  ⟨List.drop_suffix _ _, length_suffix c n⟩

theorem suffix_eq_self (h : c.length ≤ n) : c.suffix n = c := by
  rw [suffix, Nat.sub_eq_zero_of_le h, List.drop_zero]

end Context

namespace Contexts

/-- A number, given out with the contexts then in use, stands for the context `c`. -/
def Denotes (r : Nat × Contexts) (c : Context) : Prop := r.2.at? r.1 = some c

/-- A request to the contexts in use. -/
inductive Operation where
  | get (c : Context)
  | append (parent : Nat) (e : ContextElement) (limit : Nat)
  | truncate (i limit : Nat)

/-- The number that an operation gives out, with the contexts then in use. -/
def operate (t : Contexts) : Operation → Nat × Contexts
  | .get c => t.get c
  | .append parent e limit => t.append parent e limit
  | .truncate i limit => t.truncate i limit

/-- The contexts in use after some operations. -/
def after (t : Contexts) (ops : List Operation) : Contexts :=
  ops.foldl (fun t op => (t.operate op).2) t

/-- Numbers and contexts belong together, whatever is asked for next. -/
structure Interns (t : Contexts) : Prop where
  distinct : ∀ i j c, t.at? i = some c → t.at? j = some c → i = j
  empty : t.at? 0 = some []
  get : ∀ c, Denotes (t.get c) c
  append : ∀ i c e n, t.at? i = some c →
    ∃ d, Denotes (t.append i e n) d ∧ Context.IsLast n (c ++ [e]) d
  truncate : ∀ i c n, t.at? i = some c → ∃ d, Denotes (t.truncate i n) d ∧ Context.IsLast n c d
  kept : ∀ ops i c, t.at? i = some c → (t.after ops).at? i = some c

variable {t : Contexts} {i j : Nat} {c : Context}

theorem at?_zero (t : Contexts) : t.at? 0 = some [] := by
  rw [at?, OrderedSet.at?, ← List.head?_eq_getElem?]
  exact t.head_eq

theorem eq_of_at? (hi : t.at? i = some c) (hj : t.at? j = some c) : i = j :=
  Option.some.inj ((OrderedSet.index?_eq_some_iff.2 hi).symm.trans
    (OrderedSet.index?_eq_some_iff.2 hj))

theorem elements_of_at? (h : t.at? i = some c) : t.elements i = c := by
  rw [elements, h]
  rfl

/-! ### Operations -/

theorem denotes_get (t : Contexts) (c : Context) : Denotes (t.get c) c := by
  have hmem : c ∈ (t.use c).set.toList := OrderedSet.mem_insert.2 (.inr rfl)
  obtain ⟨i, hi⟩ := List.mem_iff_getElem?.1 hmem
  have hindex : (t.use c).index? c = some i := OrderedSet.index?_eq_some_iff.2 hi
  show (t.use c).at? (((t.use c).index? c).getD 0) = some c
  rw [hindex]
  exact hi

theorem denotes_append (h : t.at? i = some c) (e : ContextElement) (n : Nat) :
    Denotes (t.append i e n) (c.append e n) := by
  rw [append, elements_of_at? h]
  exact t.denotes_get _

theorem denotes_truncate (h : t.at? i = some c) (n : Nat) :
    Denotes (t.truncate i n) (c.suffix n) := by
  rw [truncate, elements_of_at? h]
  split <;> rename_i hn
  · rw [Context.suffix_eq_self hn]
    exact h
  · exact t.denotes_get _

theorem isPrefix_truncate (t : Contexts) (i n : Nat) :
    t.set.toList <+: (t.truncate i n).2.set.toList := by
  unfold truncate
  split
  · exact List.prefix_refl _
  · exact t.set.isPrefix_insert _

/-- An operation may number a further context, and leaves the numbers that are in use alone. -/
theorem at?_operate (h : t.at? i = some c) (op : Operation) :
    (t.operate op).2.at? i = some c := by
  have hprefix : t.set.toList <+: (t.operate op).2.set.toList := by
    cases op with
    | get c => exact t.set.isPrefix_insert c
    | append parent e limit => exact t.set.isPrefix_insert _
    | truncate i limit => exact t.isPrefix_truncate i limit
  exact Code.getElem?_of_isPrefix hprefix h

theorem at?_after (h : t.at? i = some c) (ops : List Operation) :
    (t.after ops).at? i = some c := by
  unfold after
  induction ops generalizing t with
  | nil => exact h
  | cons op ops ih => exact ih (at?_operate h op)

theorem interns_contexts (t : Contexts) : t.Interns where
  distinct _ _ _ := eq_of_at?
  empty := t.at?_zero
  get := t.denotes_get
  append _ _ e n h := ⟨_, denotes_append h e n, Context.isLast_suffix n _⟩
  truncate _ _ n h := ⟨_, denotes_truncate h n, Context.isLast_suffix n _⟩
  kept ops _ _ h := at?_after h ops

/-! ### Choices of a policy -/

/-- The context of a callee, from the contexts of the caller and of the receiver. -/
theorem denotes_select (h : t.at? i = some c) (policy : ContextPolicy) (site : SiteId)
    (receiver : Option (StmtId × Nat)) :
    Denotes (t.select policy i site receiver)
      (policy.calleeContext c site (receiver.map fun r => ⟨r.1, t.elements r.2⟩)) := by
  cases policy with
  | insensitive => exact t.at?_zero
  | callSite k => exact denotes_append h _ k
  | object k =>
    cases receiver with
    | none => exact h
    | some r => exact t.denotes_get _

theorem denotes_selectHeap (h : t.at? i = some c) (policy : ContextPolicy) :
    Denotes (t.selectHeap policy i) (policy.heapContext c) := by
  cases policy with
  | insensitive => exact t.at?_zero
  | callSite k | object k => exact denotes_truncate h (k - 1)

/-- The context after a chain of calls that starts in the empty one. -/
def follow (t : Contexts) (policy : ContextPolicy)
    (calls : List (SiteId × Option (StmtId × Nat))) : Nat × Contexts :=
  calls.foldl (fun r x => r.2.select policy r.1 x.1 x.2) (0, t)

/-- With a limit of `k` call sites, a chain of calls leads to the context of its last `k` call
sites, and the objects made there are told apart by one call site less. -/
structure TracksCalls (t : Contexts) (k : Nat) (calls : List (SiteId × Option (StmtId × Nat))) :
    Prop where
  method : ∃ c, Denotes (t.follow (.callSite k) calls) c ∧
    Context.IsLast k (calls.map fun x => .call x.1) c
  heap : ∃ c, Denotes ((t.follow (.callSite k) calls).2.selectHeap (.callSite k)
      (t.follow (.callSite k) calls).1) c ∧
    Context.IsLast (k - 1) (calls.map fun x => .call x.1) c

/-- With a limit of `k` allocations, an object has the last `k - 1` elements of the context of the
method that makes it, and a method that is called on it later has the last `k` elements of these
followed by the allocation. -/
def TracksReceivers (t : Contexts) (k : Nat) : Prop :=
  ∀ i c alloc ops caller site, t.at? i = some c →
    ∃ heap d, Denotes (t.selectHeap (.object k) i) heap ∧ Context.IsLast (k - 1) c heap ∧
      Denotes (((t.selectHeap (.object k) i).2.after ops).select (.object k) caller site
        (some (alloc, (t.selectHeap (.object k) i).1))) d ∧
      Context.IsLast k (heap ++ [.alloc alloc]) d

/-- Going on from a context that was cut before leads to the same as never cutting anything. -/
theorem denotes_foldl_select {r : Nat × Contexts} {k : Nat} (h : Denotes r (c.suffix k))
    (calls : List (SiteId × Option (StmtId × Nat))) :
    Denotes (calls.foldl (fun r x => r.2.select (.callSite k) r.1 x.1 x.2) r)
      (Context.suffix (c ++ calls.map fun x => .call x.1) k) := by
  induction calls generalizing r c with
  | nil =>
    rw [List.map_nil, List.append_nil]
    exact h
  | cons x calls ih =>
    have hstep : (c.suffix k).append (.call x.1) k = Context.suffix (c ++ [.call x.1]) k :=
      Context.append_suffix (Nat.le_succ k) c _
    have hselect := denotes_select h (.callSite k) x.1 x.2
    rw [show ContextPolicy.calleeContext (.callSite k) _ _ _ = _ from hstep] at hselect
    rw [List.foldl_cons, List.map_cons, ← List.singleton_append, ← List.append_assoc]
    exact ih hselect

theorem tracksCalls (t : Contexts) (k : Nat) (calls : List (SiteId × Option (StmtId × Nat))) :
    t.TracksCalls k calls := by
  have hstart : Denotes (0, t) (Context.suffix [] k) := by
    rw [Context.suffix_nil]
    exact t.at?_zero
  have hmethod : Denotes (t.follow (.callSite k) calls)
      (Context.suffix (calls.map fun x => .call x.1) k) :=
    denotes_foldl_select hstart calls
  have hheap := denotes_selectHeap hmethod (.callSite k)
  rw [show ContextPolicy.heapContext (.callSite k) _ = _ from
    Context.suffix_suffix (Nat.sub_le k 1) _] at hheap
  exact ⟨⟨_, hmethod, Context.isLast_suffix _ _⟩, ⟨_, hheap, Context.isLast_suffix _ _⟩⟩

theorem tracksReceivers (t : Contexts) (k : Nat) : t.TracksReceivers k := by
  intro i c alloc ops caller site hi
  have hheap : Denotes (t.selectHeap (.object k) i) (c.suffix (k - 1)) :=
    denotes_selectHeap hi (.object k)
  have hlater := at?_after hheap ops
  exact ⟨_, _, hheap, Context.isLast_suffix _ _, denotes_append hlater (.alloc alloc) k,
    Context.isLast_suffix _ _⟩

end Contexts

end PointsTo
