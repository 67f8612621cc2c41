import PointsTo.Proofs.Contexts
import PointsTo.Proofs.Finiteness
import PointsTo.Proofs.Solver.Scope

/-!
# Limited contexts

A policy with the limit `k` tells methods apart by `k` call sites or allocations, and objects by one
less. This is so for the contexts that it chooses, one choice after the other, and for all contexts
that a run without plugins ever uses.

* `ContextPolicy.Allows`: a context is short enough, and has elements of the right kind;
* `Analysis.Limited`: the policy allows the contexts in a result;
* `contexts_limited`: numbers of contexts, choices of a policy, and runs.
-/

namespace PointsTo

namespace ContextPolicy

/-- The elements of which a policy builds contexts. -/
def Uses : ContextPolicy → ContextElement → Prop
  | .callSite _, .call _ => True
  | .object _, .alloc _ => True
  | _, _ => False

/-- The context has at most `n` elements, all of them of the kind that the policy uses. -/
def Allows (policy : ContextPolicy) (n : Nat) (c : Context) : Prop :=
  c.length ≤ n ∧ ∀ e ∈ c, policy.Uses e

variable {policy : ContextPolicy} {n : Nat} {c : Context}

theorem Allows.nil (policy : ContextPolicy) (n : Nat) : policy.Allows n [] :=
  ⟨Nat.zero_le n, List.forall_mem_nil _⟩

theorem allows_suffix (h : ∀ e ∈ c, policy.Uses e) (n : Nat) : policy.Allows n (c.suffix n) := by
  refine ⟨?_, fun e he => h e (List.mem_of_mem_drop he)⟩
  rw [Context.length_suffix]
  exact Nat.min_le_left n c.length

theorem allows_append (h : ∀ e ∈ c, policy.Uses e) {e : ContextElement} (he : policy.Uses e)
    (n : Nat) : policy.Allows n (c.append e n) := by
  refine allows_suffix (fun e' he' => ?_) n
  rcases List.mem_append.1 he' with he' | he'
  · exact h e' he'
  · exact List.mem_singleton.1 he' ▸ he

/-- What the limit of a policy leaves for methods and for objects. -/
def scope (policy : ContextPolicy) : Scope where
  method := policy.Allows policy.depth
  heap := policy.Allows (policy.depth - 1)

/-- The choices of a policy keep to its limit. -/
theorem scope_respects (policy : ContextPolicy) : policy.scope.Respects policy where
  entry := .nil _ _
  callee c site receiver hc hr := by
    cases policy with
    | insensitive => exact .nil _ _
    | callSite k => exact allows_append hc.2 (e := .call site) trivial k
    | object k =>
      cases receiver with
      | none => exact hc
      | some o => exact allows_append (hr o rfl).2 (e := .alloc o.site) trivial k
  object c hc := by
    cases policy with
    | insensitive => exact .nil _ _
    | callSite k | object k => exact allows_suffix hc.2 (k - 1)

end ContextPolicy

/-- The contexts in a result keep to the limit of a policy. -/
structure Analysis.Limited (policy : ContextPolicy) (a : Analysis) : Prop where
  methods : ∀ m ∈ a.calls.methods, policy.Allows policy.depth m.ctx
  sites : ∀ m, ∀ s ∈ a.calls.sitesIn m, policy.Allows policy.depth s.ctx
  edges : ∀ m e, (m, e) ∈ a.calls.calls → policy.Allows policy.depth m.ctx ∧
    policy.Allows policy.depth e.site.ctx ∧ policy.Allows policy.depth e.callee.ctx
  vars : ∀ c v, .var c v ∈ a.heap.pointers.keys → policy.Allows policy.depth c
  fields : ∀ o x, .field o x ∈ a.heap.pointers.keys → policy.Allows (policy.depth - 1) o.heap
  objects : ∀ o ∈ a.heap.objs.keys, policy.Allows (policy.depth - 1) o.heap
  pointees : ∀ p, ∀ o ∈ a.heap.pointsTo p, policy.Allows (policy.depth - 1) o.heap
  contexts : ∀ c ∈ a.contexts.set, policy.Allows policy.depth c

theorem Core.Within.limited {c : Core} {policy : ContextPolicy} (h : c.Within policy.scope) :
    c.analysis.Limited policy where
  methods m hm := h.facts (.reach m) (.inl hm)
  sites m s hs := (h.facts (.site m s) (.inl hs)).2
  edges m e he := h.facts (.edge m e) (.inl he)
  vars _ _ hp := h.pointers _ hp
  fields _ _ hp := h.pointers _ hp
  objects := h.objs
  pointees _ _ ho := h.heap_of_mem ho
  contexts x hx := (h.contexts x hx).elim id fun hheap => ⟨hheap.1.trans (Nat.sub_le _ 1), hheap.2⟩

/-- Numbers of contexts, however they were asked for, belong to different contexts and keep them;
with a limit of `k`, chains of calls and receivers lead to the contexts of the last `k` call sites
or allocations; and between any calls of a solver without plugins, whatever the tables and entries
are, no context exceeds the limit of its policy or has elements of the wrong kind. -/
theorem contexts_limited :
    (∀ ops, (Contexts.initial.after ops).Interns) ∧
    (∀ ops k calls, (Contexts.initial.after ops).TracksCalls k calls) ∧
    (∀ ops k, (Contexts.initial.after ops).TracksReceivers k) ∧
    ∀ e journal entries policy order calls,
      ((Solver.create .idle e journal entries policy order).after
        calls).core.analysis.Limited policy := by
  refine ⟨fun ops => Contexts.interns_contexts _, fun ops => Contexts.tracksCalls _,
    fun ops => Contexts.tracksReceivers _, fun e journal entries policy order calls => ?_⟩
  have hstart := Solver.within_create policy.scope_respects e journal entries order
  exact (Solver.within_after hstart calls).limited

end PointsTo
