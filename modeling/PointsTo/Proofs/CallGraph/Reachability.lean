import Mathlib.Data.List.Perm.Subperm
import Mathlib.Logic.Relation
import PointsTo.Proofs.CallGraph.MethodGraph

/-!
# What breadth-first search finds

A search lists exactly what can be reached, if it may take up as many nodes as there are
(`Search.mem_breadthFirst`). Hence the methods that calls lead to from a method of a consistent call
graph are those at the end of a path of its edges (`CallGraph.mem_reachableFrom`).
-/

namespace PointsTo

namespace Search

variable {α : Type} [DecidableEq α] {next : α → List α} {nodes done queue starts xs : List α}
  {a b : α} {n : Nat}

theorem mem_fresh : b ∈ fresh done xs ↔ b ∈ xs ∧ b ∉ done := by
  simp [fresh]

theorem nodup_eraseDups (xs : List α) : xs.eraseDups.Nodup := by
  have hnodup := (eraseDupsBy_spec id xs).1
  rwa [List.map_id] at hnodup

/-! ### Taking up a node -/

omit [DecidableEq α] in
/-- A node that is taken up stays among those that were discovered. -/
theorem append_step (done queue xs : List α) (a : α) :
    (done ++ [a]) ++ (queue ++ xs) = (done ++ a :: queue) ++ xs := by
  simp

theorem nodup_step (h : (done ++ a :: queue).Nodup) :
    ((done ++ [a]) ++ (queue ++ fresh (done ++ a :: queue) (next a))).Nodup := by
  rw [append_step, List.nodup_append]
  refine ⟨h, nodup_eraseDups _, ?_⟩
  rintro b hb _ hb' rfl
  exact (mem_fresh.1 hb').2 hb

theorem found_step (h : ∀ b ∈ done, ∀ c ∈ next b, c ∈ done ++ a :: queue) :
    ∀ b ∈ done ++ [a], ∀ c ∈ next b,
      c ∈ (done ++ [a]) ++ (queue ++ fresh (done ++ a :: queue) (next a)) := by
  rw [append_step]
  intro b hb c hc
  rcases List.mem_append.1 hb with hb | hb
  · exact List.mem_append_left _ (h b hb c hc)
  · obtain rfl := List.mem_singleton.1 hb
    by_cases hold : c ∈ done ++ b :: queue
    · exact List.mem_append_left _ hold
    · exact List.mem_append_right _ (mem_fresh.2 ⟨hc, hold⟩)

/-! ### What is found -/

/-- What a search lists was taken up before, or is reached from what was discovered. -/
theorem exists_path_of_mem_explore (h : b ∈ explore next n done queue) :
    b ∈ done ∨ ∃ a ∈ queue, Relation.ReflTransGen (fun a b => b ∈ next a) a b := by
  induction n generalizing done queue with
  | zero => exact .inl h
  | succ n ih =>
    cases queue with
    | nil => exact .inl h
    | cons a queue =>
      rcases ih h with hb | ⟨a', ha', hpath⟩
      · rcases List.mem_append.1 hb with hb | hb
        · exact .inl hb
        · obtain rfl := List.mem_singleton.1 hb
          exact .inr ⟨b, List.mem_cons_self, .refl⟩
      · rcases List.mem_append.1 ha' with ha' | ha'
        · exact .inr ⟨a', List.mem_cons_of_mem a ha', hpath⟩
        · exact .inr ⟨a, List.mem_cons_self, hpath.head (mem_fresh.1 ha').1⟩

/-- The state of a search: every node was discovered once, and those that the nodes taken up lead to
were discovered. -/
structure Explores (next : α → List α) (nodes done queue : List α) : Prop where
  nodup : (done ++ queue).Nodup
  inside : ∀ a ∈ done ++ queue, a ∈ nodes
  found : ∀ a ∈ done, ∀ b ∈ next a, b ∈ done ++ queue

theorem Explores.step (hnext : ∀ a ∈ nodes, ∀ b ∈ next a, b ∈ nodes)
    (h : Explores next nodes done (a :: queue)) :
    Explores next nodes (done ++ [a]) (queue ++ fresh (done ++ a :: queue) (next a)) := by
  refine ⟨nodup_step h.nodup, ?_, found_step h.found⟩
  rw [append_step]
  intro b hb
  rcases List.mem_append.1 hb with hb | hb
  · exact h.inside b hb
  · exact hnext a (h.inside a (by simp)) b (mem_fresh.1 hb).1

/-- A search that may take up all nodes lists what was discovered, and what its members lead to. -/
theorem Explores.closed (hnext : ∀ a ∈ nodes, ∀ b ∈ next a, b ∈ nodes)
    (h : Explores next nodes done queue) (hn : nodes.length ≤ n + done.length) :
    (∀ a ∈ done ++ queue, a ∈ explore next n done queue) ∧
      ∀ a ∈ explore next n done queue, ∀ b ∈ next a, b ∈ explore next n done queue := by
  induction n generalizing done queue with
  | zero =>
    -- all nodes were taken up, so that none is left in the queue
    have hlen := (List.subperm_of_subset h.nodup h.inside).length_le
    rw [List.length_append] at hlen
    obtain rfl : queue = [] := List.eq_nil_of_length_eq_zero (by omega)
    have hfound := h.found
    rw [List.append_nil] at hfound ⊢
    exact ⟨fun _ ha => ha, hfound⟩
  | succ n ih =>
    cases queue with
    | nil =>
      have hfound := h.found
      rw [List.append_nil] at hfound ⊢
      exact ⟨fun _ ha => ha, hfound⟩
    | cons a queue =>
      have hlen : nodes.length ≤ n + (done ++ [a]).length := by
        rw [List.length_append, List.length_singleton]
        omega
      obtain ⟨hlisted, hclosed⟩ := ih (h.step hnext) hlen
      refine ⟨fun b hb => hlisted b ?_, hclosed⟩
      simp only [List.mem_append, List.mem_cons, List.not_mem_nil, or_false] at hb ⊢
      tauto

/-- A search lists exactly the nodes that can be reached. -/
theorem mem_breadthFirst (hstarts : ∀ a ∈ starts, a ∈ nodes)
    (hnext : ∀ a ∈ nodes, ∀ b ∈ next a, b ∈ nodes) (hn : nodes.length ≤ n) :
    b ∈ breadthFirst next n starts ↔
      ∃ a ∈ starts, Relation.ReflTransGen (fun a b => b ∈ next a) a b := by
  have hmem : ∀ a, a ∈ starts.eraseDups ↔ a ∈ starts := fun a => List.mem_eraseDups
  constructor
  · intro hb
    rcases exists_path_of_mem_explore hb with hb | ⟨a, ha, hpath⟩
    · exact absurd hb List.not_mem_nil
    · exact ⟨a, (hmem a).1 ha, hpath⟩
  · rintro ⟨a, ha, hpath⟩
    have hstart : Explores next nodes [] starts.eraseDups :=
      ⟨nodup_eraseDups starts, fun a ha => hstarts a ((hmem a).1 ha), by simp⟩
    obtain ⟨hlisted, hclosed⟩ := hstart.closed hnext (n := n) (by simpa using hn)
    induction hpath with
    | refl => exact hlisted a ((hmem a).2 ha)
    | tail _ hb ih => exact hclosed _ ih _ hb

end Search

namespace CallGraph

variable {σ μ : Type} [DecidableEq σ] [DecidableEq μ] {g : CallGraph σ μ} {root m m' : μ}

/-- An edge leads from `m` to `m'`. -/
def Calls (g : CallGraph σ μ) (m m' : μ) : Prop := ∃ e, (m, e) ∈ g.calls ∧ e.callee = m'

omit [DecidableEq σ] in
theorem mem_successors : m' ∈ g.successors m ↔ g.Calls m m' := by
  simp only [successors, Calls, List.mem_map, List.mem_filter, List.mem_reverse, decide_eq_true_iff]
  constructor
  · rintro ⟨⟨x, e⟩, ⟨he, rfl⟩, rfl⟩
    exact ⟨e, he, rfl⟩
  · rintro ⟨e, he, rfl⟩
    exact ⟨(m, e), ⟨he, rfl⟩, rfl⟩

/-- The methods that calls lead to are those at the end of a path of edges. -/
theorem mem_reachableFrom (h : g.Consistent) :
    m ∈ g.reachableFrom root ↔ root ∈ g.methods ∧ Relation.ReflTransGen g.Calls root m := by
  unfold reachableFrom
  split <;> rename_i hroot <;> rw [contains_iff] at hroot
  · have hstarts : ∀ a ∈ [root], a ∈ g.methods.toList := by simpa using hroot
    have hnext : ∀ a ∈ g.methods.toList, ∀ b ∈ g.successors a, b ∈ g.methods.toList := by
      intro a _ b hb
      obtain ⟨e, he, rfl⟩ := mem_successors.1 hb
      exact (h.joined _ he).2
    have hcount : g.methods.toList.length ≤ g.methodCount := Nat.le_refl _
    rw [Search.mem_breadthFirst hstarts hnext hcount]
    simp only [mem_successors, List.mem_singleton, exists_eq_left, hroot, true_and]
  · simp [hroot]

end CallGraph

end PointsTo
