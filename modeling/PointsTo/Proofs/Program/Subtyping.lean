import Mathlib.Data.List.Flatten
import PointsTo.Proofs.Program.Dispatch

/-!
# Deciding subtyping

A class is a subtype of what superclasses and interfaces lead to, in any number of steps. This is
decided by a search with a queue that stops as soon as the supertype comes up. It ends for every
program, also if classes or interfaces lead back to themselves: what the classes that were not yet
taken up still add to the queue, together with the queue, gets shorter with every step.

* `Search.exists_seek`: the search ends;
* `Search.Seeks`: what holds between its steps, and `Search.Seeks.answer_iff`: its answer is right;
* `Program.isSubtype_closure`: subtyping is the reflexive and transitive closure, and is what the
  search answers.
-/

namespace PointsTo

open Relation (ReflTransGen)

namespace Search

variable {α : Type} [DecidableEq α] {next : α → List α} {goal a : α} {nodes queue seen : List α}
  {n : Nat} {answer : Bool}

/-! ### The answer -/

/-- The state of a search: the nodes that were seen are not the one that is looked for, and lead to
nodes that were seen or are in the queue. -/
structure Seeks (next : α → List α) (goal : α) (queue seen : List α) : Prop where
  missed : goal ∉ seen
  found : ∀ a ∈ seen, ∀ b ∈ next a, b ∈ seen ∨ b ∈ queue

omit [DecidableEq α] in
theorem seeks_nil (next : α → List α) (goal : α) (queue : List α) : Seeks next goal queue [] :=
  ⟨List.not_mem_nil, List.forall_mem_nil _⟩

omit [DecidableEq α] in
theorem Seeks.skip (h : Seeks next goal (a :: queue) seen) (ha : a ∈ seen) :
    Seeks next goal queue seen where
  missed := h.missed
  found b hb c hc := by
    rcases h.found b hb c hc with hc | hc
    · exact .inl hc
    · rcases List.mem_cons.1 hc with rfl | hc
      · exact .inl ha
      · exact .inr hc

omit [DecidableEq α] in
theorem Seeks.visit (h : Seeks next goal (a :: queue) seen) (ha : a ≠ goal) :
    Seeks next goal (queue ++ next a) (a :: seen) where
  missed := List.not_mem_cons_of_ne_of_not_mem ha.symm h.missed
  found b hb c hc := by
    rcases List.mem_cons.1 hb with rfl | hb
    · exact .inr (List.mem_append_right _ hc)
    · rcases h.found b hb c hc with hc | hc
      · exact .inl (List.mem_cons_of_mem _ hc)
      · rcases List.mem_cons.1 hc with rfl | hc
        · exact .inl (List.mem_cons_self ..)
        · exact .inr (List.mem_append_left _ hc)

omit [DecidableEq α] in
/-- A path from a node that was seen leaves the seen nodes through the queue. -/
theorem Seeks.exists_path (h : Seeks next goal queue seen) (ha : a ∈ seen)
    (hpath : ReflTransGen (fun a b => b ∈ next a) a goal) :
    ∃ b ∈ queue, ReflTransGen (fun a b => b ∈ next a) b goal := by
  induction hpath using ReflTransGen.head_induction_on with
  | refl => exact absurd ha h.missed
  | @head a b hab hpath ih =>
    rcases h.found a ha b hab with hb | hb
    · exact ih hb
    · exact ⟨b, hb, hpath⟩

/-- A search finds the node if a path leads to it from a node in the queue. -/
theorem Seeks.answer_iff (h : Seeks next goal queue seen)
    (hseek : seek next goal n queue seen = some answer) :
    answer = true ↔ ∃ a ∈ queue, ReflTransGen (fun a b => b ∈ next a) a goal := by
  induction n generalizing queue seen with
  | zero => cases hseek
  | succ n ih =>
    cases queue with
    | nil =>
      cases hseek
      simp
    | cons a queue =>
      rw [seek] at hseek
      split at hseek <;> rename_i hgoal
      · subst hgoal
        cases hseek
        exact ⟨fun _ => ⟨a, List.mem_cons_self .., .refl⟩, fun _ => rfl⟩
      · split at hseek <;> rename_i hseen
        · rw [ih (h.skip hseen) hseek]
          constructor
          · rintro ⟨b, hb, hpath⟩
            exact ⟨b, List.mem_cons_of_mem _ hb, hpath⟩
          · rintro ⟨b, hb, hpath⟩
            rcases List.mem_cons.1 hb with rfl | hb
            · exact (h.skip hseen).exists_path hseen hpath
            · exact ⟨b, hb, hpath⟩
        · rw [ih (h.visit hgoal) hseek]
          constructor
          · rintro ⟨b, hb, hpath⟩
            rcases List.mem_append.1 hb with hb | hb
            · exact ⟨b, List.mem_cons_of_mem _ hb, hpath⟩
            · exact ⟨a, List.mem_cons_self .., hpath.head hb⟩
          · rintro ⟨b, hb, hpath⟩
            rcases List.mem_cons.1 hb with rfl | hb
            · exact (h.visit hgoal).exists_path (List.mem_cons_self ..) hpath
            · exact ⟨b, List.mem_append_left _ hb, hpath⟩

/-! ### The end -/

/-- What the nodes that were not seen lead to. -/
def ahead (next : α → List α) (nodes seen : List α) : List α :=
  (nodes.filter (· ∉ seen)).flatMap next

theorem length_ahead_cons_le (next : α → List α) (nodes seen : List α) (a : α) :
    (ahead next nodes (a :: seen)).length ≤ (ahead next nodes seen).length := by
  have hsub : (nodes.filter (· ∉ a :: seen)).Sublist (nodes.filter (· ∉ seen)) :=
    List.monotone_filter_right nodes fun b hb => by simp_all
  exact (hsub.flatMap next).length_le

/-- A node that is taken up does not count any more. -/
theorem length_ahead_cons_add_le (next : α → List α) (ha : a ∈ nodes) (hseen : a ∉ seen) :
    (ahead next nodes (a :: seen)).length + (next a).length ≤ (ahead next nodes seen).length := by
  obtain ⟨before, after, rfl⟩ := List.append_of_mem ha
  have hbefore := length_ahead_cons_le next before seen a
  have hafter := length_ahead_cons_le next after seen a
  simp only [ahead, List.filter_append, List.flatMap_append, List.length_append] at *
  rw [List.filter_cons_of_neg (by simp), List.filter_cons_of_pos (by simpa using hseen),
    List.flatMap_cons, List.length_append]
  omega

/-- A search ends, if there are finitely many nodes that lead to others. -/
theorem exists_seek (hnodes : ∀ a, next a ≠ [] → a ∈ nodes)
    (hn : queue.length + (ahead next nodes seen).length < n) :
    ∃ answer, seek next goal n queue seen = some answer := by
  induction n generalizing queue seen with
  | zero => omega
  | succ n ih =>
    cases queue with
    | nil => exact ⟨false, rfl⟩
    | cons a queue =>
      rw [List.length_cons] at hn
      rw [seek]
      split
      · exact ⟨true, rfl⟩
      · split <;> rename_i hseen
        · exact ih (by omega)
        · apply ih
          rw [List.length_append]
          by_cases ha : next a = []
          · have hle := length_ahead_cons_le next nodes seen a
            rw [ha, List.length_nil]
            omega
          · have hle := length_ahead_cons_add_le next (hnodes a ha) hseen
            omega

end Search

namespace Program

variable {p : Program} {c d : ClassId}

/-- The class `d` is the superclass or an interface of `c`. -/
def Specializes (p : Program) (c d : ClassId) : Prop :=
  (p.cls c).superclass = some d ∨ d ∈ (p.cls c).interfaces

theorem mem_supertypes : d ∈ p.supertypes c ↔ p.Specializes c d := by
  simp [supertypes, Specializes, eq_comm]

theorem isSubtype_iff_specializes : p.isSubtype c d = true ↔ ReflTransGen p.Specializes c d := by
  simp only [isSubtype_iff, mem_supertypes]

/-- The search ends after a step for each time that a class is named as a supertype, and a step for
the class itself and for the end. -/
theorem seek_supertypes (p : Program) (c d : ClassId) {n : Nat} (hn : 1 + p.supertypeCount < n) :
    Search.seek p.supertypes d n [c] [] = some (p.isSubtype c d) := by
  have hnodes : ∀ a, p.supertypes a ≠ [] → a ∈ p.classIds := by
    intro a ha
    apply mem_classIds_of_cls_ne
    intro hdefault
    apply ha
    rw [supertypes, hdefault]
    rfl
  have hlen : [c].length + (Search.ahead p.supertypes p.classIds []).length < n := by
    simpa [Search.ahead, supertypeCount] using hn
  obtain ⟨answer, hseek⟩ : ∃ answer, Search.seek p.supertypes d n [c] [] = some answer :=
    Search.exists_seek hnodes hlen
  have hanswer := (Search.seeks_nil p.supertypes d [c]).answer_iff hseek
  simp only [List.mem_singleton, exists_eq_left, ← isSubtype_iff] at hanswer
  rw [hseek, Bool.eq_iff_iff.2 hanswer]

/-- Subtyping is the reflexive and transitive closure of the steps to superclasses and interfaces,
and it is decided by a search that ends. -/
theorem isSubtype_closure (p : Program) :
    (∀ c d n, 1 + p.supertypeCount < n →
      Search.seek p.supertypes d n [c] [] = some (p.isSubtype c d)) ∧
    (∀ c d, p.isSubtype c d = true ↔ ReflTransGen p.Specializes c d) ∧
    (∀ c, p.isSubtype c c = true) ∧
    ∀ c d k, p.isSubtype c d = true → p.isSubtype d k = true → p.isSubtype c k = true := by
  refine ⟨fun c d n => p.seek_supertypes c d, fun c d => isSubtype_iff_specializes, ?_, ?_⟩
  · intro c
    exact isSubtype_iff_specializes.2 .refl
  · intro c d k hcd hdk
    rw [isSubtype_iff_specializes] at *
    exact hcd.trans hdk

/-- Two classes that extend each other, one of them with two interfaces that both extend a third
one. -/
def knotted : Program where
  classes := [{ name := "A", superclass := some ⟨1⟩ },
    { name := "B", superclass := some ⟨0⟩, interfaces := [⟨2⟩, ⟨3⟩] },
    .interface "I" [⟨4⟩], .interface "J" [⟨4⟩], .interface "K" [], { name := "C" }]

/-- The first class is a subtype of the third interface, and not of the last class. -/
theorem isSubtype_closure_knotted :
    Search.seek knotted.supertypes ⟨4⟩ 8 [⟨0⟩] [] = some true ∧
      Search.seek knotted.supertypes ⟨5⟩ 8 [⟨0⟩] [] = some false ∧
      ¬ ReflTransGen knotted.Specializes ⟨0⟩ ⟨5⟩ ∧ knotted.isSubtype ⟨0⟩ ⟨4⟩ = true := by
  obtain ⟨hseek, hclosure, -, htrans⟩ := isSubtype_closure knotted
  have hsub : knotted.isSubtype ⟨0⟩ ⟨1⟩ = true ∧ knotted.isSubtype ⟨1⟩ ⟨4⟩ = true := by
    decide +kernel
  have hapart : knotted.isSubtype ⟨0⟩ ⟨5⟩ = false := by decide +kernel
  have htop := htrans _ _ _ hsub.1 hsub.2
  refine ⟨?_, ?_, ?_, htop⟩
  · rw [hseek _ _ 8 (by decide +kernel), htop]
  · rw [hseek _ _ 8 (by decide +kernel), hapart]
  · rw [← hclosure, hapart]
    decide

end Program

end PointsTo
