import PointsTo.Proofs.Solver.Works

/-!
# Propagation along the flow graph

Only what is new to a pointer is sent along its edges, and edges are drawn while the sets at their
ends are partly filled. Nothing is lost in this way: between any two calls of a solver, whatever its
plugins do, the objects of a pointer have arrived at its successors, or are on the worklist for them
(`Solver.propagates_after`). A call may have failed halfway. More generally, what single operations
on the state keep, all calls keep (`Solver.keeps_after`).
-/

namespace PointsTo

/-- Along every edge of the flow graph, objects have arrived or are on the worklist. -/
structure Core.Propagates (c : Core) : Prop where
  pending : ∀ a b, c.flow.hasEdge a b = true → ∀ o ∈ c.pointsTo a,
    o ∈ c.pointsTo b ∨ ∃ os, .objects b os ∈ c.worklist.items ∧ o ∈ os
  settled : c.worklist.items = [] → ∀ a b, c.flow.hasEdge a b = true →
    ∀ o ∈ c.pointsTo a, o ∈ c.pointsTo b

theorem Core.WellFormed.propagates {c : Core} (h : c.WellFormed) : c.Propagates := by
  have hpending : ∀ a b, c.flow.hasEdge a b = true → ∀ o ∈ c.pointsTo a,
      o ∈ c.pointsTo b ∨ ∃ os, .objects b os ∈ c.worklist.items ∧ o ∈ os := by
    intro a b hab o ho
    rcases h.closed a b o hab ho with hb | ⟨i, hi, hc⟩
    · exact .inl hb
    · cases hc with
      | points hos => exact .inr ⟨_, hi, hos⟩
  refine ⟨hpending, fun hempty a b hab o ho => ?_⟩
  rcases hpending a b hab o ho with hb | ⟨os, hos, -⟩
  · exact hb
  · rw [hempty] at hos
    exact absurd hos List.not_mem_nil

/-- A call of a solver. -/
inductive Call where
  | start
  | step
  | solve

namespace Solver

variable {P : Plugin}

/-- The solver after a call, with a bound on the number of tasks, whatever the verdict. -/
def obey (s : Solver P) (fuel : Nat) : Call → Solver P
  | .start => (s.start fuel).1
  | .step => (s.step fuel).1
  | .solve => (s.solve fuel).1

/-- The solver after several calls, each with its own bound on the number of tasks. -/
def after (s : Solver P) (calls : List (Call × Nat)) : Solver P :=
  calls.foldl (fun s x => s.obey x.2 x.1) s

/-- What carrying out their agendas keeps, calls keep. -/
theorem after_keeps {I : Solver P → Prop}
    (hI : ∀ l ∈ [[.begin], [.next], agenda], ∀ s fuel, I s → I (s.settle fuel l).1)
    {s : Solver P} (h : I s) (calls : List (Call × Nat)) : I (s.after calls) := by
  have hobey : ∀ (s : Solver P) fuel x, I s → I (s.obey fuel x) := by
    intro s fuel x h
    have hstart : I (s.start fuel).1 := hI [.begin] (by simp) s fuel h
    cases x with
    | start => exact hstart
    | step =>
      show I (s.step fuel).1
      unfold step
      split <;> rename_i hs <;> rw [hs] at hstart
      · rename_i s₁
        have hnext := hI [.next] (by simp) s₁ fuel hstart
        simp only
        split <;> rename_i hn <;> rw [hn] at hnext <;> exact hnext
      · exact hstart
      · exact hstart
    | solve => exact hI agenda (by simp) s fuel h
  unfold after
  induction calls generalizing s with
  | nil => exact h
  | cons x calls ih => exact ih (hobey s x.2 x.1 h)

/-- The agendas of calls are about no particular method or pointer. -/
theorem forall_mem_agendas {Q : Task → Prop} (hbegin : Q .begin) (hnext : Q .next)
    (hdrain : Q .drain) (hannounce : ∀ e, Q (.announce e)) (hstatistics : Q .statistics) :
    ∀ l ∈ [[.begin], [.next], agenda], ∀ t ∈ l, Q t := by
  intro l hl t ht
  simp only [List.mem_cons, List.not_mem_nil, or_false] at hl
  rcases hl with rfl | rfl | rfl
  · exact List.mem_singleton.1 ht ▸ hbegin
  · exact List.mem_singleton.1 ht ▸ hnext
  · simp only [agenda, List.mem_cons, List.not_mem_nil, or_false] at ht
    rcases ht with rfl | rfl | rfl | rfl | rfl
    · exact hbegin
    · exact hdrain
    · exact hannounce _
    · exact hdrain
    · exact hstatistics

theorem wellFormed_after {s : Solver P} (h : s.core.WellFormed) (calls : List (Call × Nat)) :
    (s.after calls).core.WellFormed := by
  refine after_keeps (I := fun s => s.core.WellFormed) (fun l hl s fuel h => ?_) h calls
  exact settle_sane h (forall_mem_agendas trivial trivial trivial (fun _ => trivial) trivial l hl)
    fuel

/-! ### What single operations keep -/

section

variable {Q : Core → Prop} (hedit : ∀ D c c₁, Core.Edit D c c₁ → Q c → Q c₁)
  (hnext : ∀ c : Core, Q c → Q c.next.1)
include hedit hnext

theorem perform_keeps {s : Solver P} (hs : s.core.WellFormed) (hQ : Q s.core) {t : Task}
    (ht : t.Sane s.core) : Q (s.perform t).1.core := by
  have hedits : ∀ {D : Core.Deed → Prop} {c : Core}, Core.Edits D s.core c → Q c := by
    intro D c h
    induction h with
    | refl => exact hQ
    | tail _ h ih => exact hedit D _ _ h ih
  rcases s.perform_cases t with ⟨e, rfl, heq⟩ | ⟨-, heq⟩ <;> rw [heq]
  · exact hedits (s.announce_edits e)
  · by_cases ht' : t = .next
    · subst ht'
      exact hnext s.core hQ
    · exact hedits (Core.perform_works hs ht ht').edits

/-- What edits of the state and taking up items keep, a run keeps. -/
theorem settle_keeps {s : Solver P} (hs : s.core.WellFormed) (hQ : Q s.core) {agenda : List Task}
    (hts : ∀ t ∈ agenda, t.Sane s.core) (fuel : Nat) : Q (s.settle fuel agenda).1.core := by
  induction fuel generalizing s agenda with
  | zero => cases agenda <;> exact hQ
  | succ fuel ih =>
    cases agenda with
    | nil => exact hQ
    | cons t rest =>
      have hperform := perform_keeps hedit hnext hs hQ (hts t List.mem_cons_self)
      obtain ⟨hwf, hsane⟩ := perform_sane hs hts
      unfold settle
      split <;> rename_i hp <;> rw [hp] at hwf hsane hperform
      · exact ih hwf hperform (hsane _ rfl)
      · exact hperform

/-- What edits of the state and taking up items keep, calls keep. -/
theorem keeps_after {s : Solver P} (hs : s.core.WellFormed) (hQ : Q s.core)
    (calls : List (Call × Nat)) : Q (s.after calls).core := by
  refine (after_keeps (I := fun s => s.core.WellFormed ∧ Q s.core) (fun l hl s fuel h => ?_)
    ⟨hs, hQ⟩ calls).2
  have hsane := forall_mem_agendas (Q := fun t => t.Sane s.core) trivial trivial trivial
    (fun _ => trivial) trivial l hl
  exact ⟨settle_sane h.1 hsane fuel, settle_keeps hedit hnext h.1 h.2 hsane fuel⟩

end

/-- Between any calls of a solver, also after errors, what a pointer refers to has arrived at its
successors in the flow graph or is on the worklist for them; when the worklist is empty, it has
arrived. The tables may have been worked on before. -/
theorem propagates_after (P : Plugin) (p : Program) (prepare : Script Unit)
    (journal : List String) (entries : List MethodId) (policy : ContextPolicy)
    (order : WorklistOrder) (calls : List (Call × Nat)) :
    ((create P (prepare.run { program := p }).2 journal entries policy order).after
      calls).core.Propagates := by
  have hsound := (prepare.run_develops { program := p }).sound (Elements.sound_empty p)
  have hstart := wellFormed_create P hsound journal entries policy order
  exact (wellFormed_after hstart calls).propagates

end Solver

end PointsTo
