import Mathlib.Order.Lattice.Nat
import PointsTo.Proofs.CallGraph.Reachability

/-!
# The order of breadth-first search

A search from one node lists what it reaches by distance, the nearest first, and each node once.

* `Search.Steps` and `Search.distance`: paths of a given length, and the length of a shortest one;
* `Search.Layered`: the nodes taken up and those discovered are sorted by distance, and the latter
  lie in two layers at most; taking up a node keeps it so (`Search.Layered.step`);
* `Search.pairwise_breadthFirst`, and for call graphs `CallGraph.pairwise_reachableFrom`.
-/

namespace PointsTo

namespace Search

variable {α : Type}

/-- A path of `n` steps leads from `a` to a node. -/
inductive Steps (r : α → α → Prop) (a : α) : Nat → α → Prop
  | refl : Steps r a 0 a
  | tail {n : Nat} {b c : α} (h : Steps r a n b) (hbc : r b c) : Steps r a (n + 1) c

/-- The length of a shortest path from `a` to `b`, if there is a path. -/
noncomputable def distance (r : α → α → Prop) (a b : α) : Nat := sInf {n | Steps r a n b}

section

variable {r : α → α → Prop} {a b c : α} {n : Nat}

theorem distance_le (h : Steps r a n b) : distance r a b ≤ n := Nat.sInf_le h

/-- There is a path whose length is the distance. -/
theorem steps_distance (h : Relation.ReflTransGen r a b) : Steps r a (distance r a b) b := by
  have hsteps : ∃ n, Steps r a n b := by
    induction h with
    | refl => exact ⟨0, .refl⟩
    | tail _ hbc ih => exact ih.imp' _ fun _ h => h.tail hbc
  exact Nat.sInf_mem hsteps

theorem distance_tail (h : Relation.ReflTransGen r a b) (hbc : r b c) :
    distance r a c ≤ distance r a b + 1 :=
  distance_le ((steps_distance h).tail hbc)

end

/-- The distance of a node from the root of a search. -/
noncomputable abbrev level (next : α → List α) (root a : α) : Nat :=
  distance (fun a b => b ∈ next a) root a

variable [DecidableEq α] {next : α → List α} {done queue nodes : List α} {root a b : α} {n : Nat}

/-- The state of a search from `root`, which goes by distance. -/
structure Layered (next : α → List α) (root : α) (done queue : List α) : Prop where
  started : root ∈ done ++ queue
  reached : ∀ a ∈ done ++ queue, Relation.ReflTransGen (fun a b => b ∈ next a) root a
  found : ∀ a ∈ done, ∀ b ∈ next a, b ∈ done ++ queue
  sorted : (done ++ queue).Pairwise fun a b => level next root a ≤ level next root b
  near : ∀ a ∈ queue.head?, ∀ b ∈ queue, level next root b ≤ level next root a + 1

namespace Layered

omit [DecidableEq α] in
/-- What was not discovered is farther away than the node that is taken up next. -/
theorem lt_of_not_mem (h : Layered next root done (a :: queue))
    (hb : Steps (fun a b => b ∈ next a) root n b) (hnew : b ∉ done ++ a :: queue) :
    level next root a < n := by
  induction hb with
  | refl => exact absurd h.started hnew
  | @tail n b c hb hbc ih =>
    by_cases hold : b ∈ done ++ a :: queue
    · rcases List.mem_append.1 hold with hdone | hqueue
      · exact absurd (h.found b hdone c hbc) hnew
      · -- the path leaves what was discovered at a node that is at least as far as the next one
        have hfirst := List.pairwise_cons.1 (List.pairwise_append.1 h.sorted).2.1
        have hle : level next root a ≤ level next root b := by
          rcases List.mem_cons.1 hqueue with rfl | hqueue
          · exact Nat.le_refl _
          · exact hfirst.1 b hqueue
        exact Nat.lt_succ_of_le (hle.trans (distance_le hb))
    · exact Nat.lt_succ_of_lt (ih hold)

/-- A node that is discovered when `a` is taken up is one step farther away than `a`. -/
theorem level_fresh (h : Layered next root done (a :: queue))
    (hb : b ∈ fresh (done ++ a :: queue) (next a)) :
    level next root b = level next root a + 1 := by
  obtain ⟨hnext, hnew⟩ := mem_fresh.1 hb
  have ha := h.reached a (by simp)
  exact Nat.le_antisymm (distance_tail ha hnext)
    (h.lt_of_not_mem (steps_distance (ha.tail hnext)) hnew)

theorem step (h : Layered next root done (a :: queue)) :
    Layered next root (done ++ [a]) (queue ++ fresh (done ++ a :: queue) (next a)) := by
  obtain ⟨hdone, hqueue, hacross⟩ := List.pairwise_append.1 h.sorted
  have hfirst := (List.pairwise_cons.1 hqueue).1
  -- the nodes discovered so far are at most one step farther away than `a`
  have hupper : ∀ b ∈ done ++ a :: queue, level next root b ≤ level next root a + 1 := by
    intro b hb
    rcases List.mem_append.1 hb with hb | hb
    · exact Nat.le_succ_of_le (hacross b hb a List.mem_cons_self)
    · exact h.near a rfl b hb
  constructor
  case started =>
    rw [append_step]
    exact List.mem_append_left _ h.started
  case reached =>
    rw [append_step]
    intro b hb
    rcases List.mem_append.1 hb with hb | hb
    · exact h.reached b hb
    · exact (h.reached a (by simp)).tail (mem_fresh.1 hb).1
  case found => exact found_step h.found
  case sorted =>
    rw [append_step]
    refine List.pairwise_append.2 ⟨h.sorted, ?_, fun b hb c hc => ?_⟩
    · refine List.pairwise_of_forall_mem_list fun b hb c hc => ?_
      rw [h.level_fresh hb, h.level_fresh hc]
    · rw [h.level_fresh hc]
      exact hupper b hb
  case near =>
    intro b hb c hc
    have hb' : b ∈ queue ++ fresh (done ++ a :: queue) (next a) := List.mem_of_mem_head? hb
    have hlower : level next root a ≤ level next root b := by
      rcases List.mem_append.1 hb' with hb' | hb'
      · exact hfirst b hb'
      · rw [h.level_fresh hb']
        exact Nat.le_succ _
    have hc' : level next root c ≤ level next root a + 1 := by
      rcases List.mem_append.1 hc with hc | hc
      · exact h.near a rfl c (List.mem_cons_of_mem a hc)
      · exact (h.level_fresh hc).le
    omega

theorem pairwise_explore (h : Layered next root done queue) (n : Nat) :
    (explore next n done queue).Pairwise fun a b => level next root a ≤ level next root b := by
  have hdone := (List.pairwise_append.1 h.sorted).1
  induction n generalizing done queue with
  | zero => exact hdone
  | succ n ih =>
    cases queue with
    | nil => exact hdone
    | cons a queue => exact ih h.step (List.pairwise_append.1 h.step.sorted).1

end Layered

/-- A search lists no node before one that is nearer. -/
theorem pairwise_breadthFirst (next : α → List α) (n : Nat) (root : α) :
    (breadthFirst next n [root]).Pairwise fun a b => level next root a ≤ level next root b := by
  have hstart : Layered next root [] [root] := by
    constructor
    case started => exact List.mem_singleton_self root
    case reached =>
      intro a ha
      rw [List.mem_singleton.1 ha]
    case found => exact List.forall_mem_nil _
    case sorted => exact List.pairwise_singleton _ _
    case near =>
      rintro _ ⟨⟩ b hb
      rw [List.mem_singleton.1 hb]
      exact Nat.le_succ _
  exact hstart.pairwise_explore n

theorem isPrefix_explore (next : α → List α) (n : Nat) (done queue : List α) :
    done <+: explore next n done queue := by
  induction n generalizing done queue with
  | zero => exact List.prefix_refl done
  | succ n ih =>
    cases queue with
    | nil => exact List.prefix_refl done
    | cons a queue => exact (List.prefix_append done [a]).trans (ih _ _)

/-- A node is taken up once. -/
theorem nodup_explore (h : (done ++ queue).Nodup) (n : Nat) :
    (explore next n done queue).Nodup := by
  have hdone := (List.nodup_append.1 h).1
  induction n generalizing done queue with
  | zero => exact hdone
  | succ n ih =>
    cases queue with
    | nil => exact hdone
    | cons a queue =>
      have hnodup : ((done ++ [a]) ++ (queue ++ fresh (done ++ a :: queue) (next a))).Nodup :=
        nodup_step h
      exact ih hnodup (List.nodup_append.1 hnodup).1

end Search

namespace CallGraph

variable {σ μ : Type} [DecidableEq σ] [DecidableEq μ]

omit [DecidableEq σ] in
theorem nodup_reachableFrom (g : CallGraph σ μ) (root : μ) : (g.reachableFrom root).Nodup := by
  unfold reachableFrom
  split
  · exact Search.nodup_explore (Search.nodup_eraseDups [root]) _
  · exact List.nodup_nil

omit [DecidableEq σ] in
/-- A method of the graph leads to itself first. -/
theorem head?_reachableFrom {g : CallGraph σ μ} {root : μ} (h : root ∈ g.methods) :
    (g.reachableFrom root).head? = some root := by
  have hpos : 0 < g.methodCount := List.length_pos_of_mem h
  obtain ⟨n, hn⟩ := Nat.exists_eq_succ_of_ne_zero hpos.ne'
  rw [reachableFrom, if_pos (contains_iff.2 h), hn]
  -- the root is taken up in the first round
  obtain ⟨rest, hrest⟩ := Search.isPrefix_explore g.successors n [root]
    (Search.fresh [root] (g.successors root))
  exact (congrArg List.head? hrest).symm

omit [DecidableEq σ] in
/-- Methods are listed by their distance from the root. -/
theorem pairwise_reachableFrom (g : CallGraph σ μ) (root : μ) :
    (g.reachableFrom root).Pairwise fun m m' =>
      Search.distance g.Calls root m ≤ Search.distance g.Calls root m' := by
  have hcalls : (fun m m' => m' ∈ g.successors m) = g.Calls :=
    funext₂ fun _ _ => propext mem_successors
  unfold reachableFrom
  split
  · exact hcalls ▸ Search.pairwise_breadthFirst g.successors g.methodCount root
  · exact List.Pairwise.nil

end CallGraph

end PointsTo
