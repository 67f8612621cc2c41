import PointsTo.Solver.Run

/-!
# Runs without plugins

Without plugins a solver does what its state says, so that runs are understood from
`Core.perform` alone.

* `Solver.settle_invariant`: what every task keeps holds along a run;
* `Solver.Settles`: how an agenda is carried out if the bound on the number of tasks is no obstacle,
  and `Solver.Halts`: it is carried out at all;
* `Solver.Halts.append`: an agenda is carried out part by part;
* `Solver.steps`: several steps, one after the other.
-/

namespace PointsTo

instance (v : Verdict Unit) : Decidable (v = .done ()) :=
  match v with
  | .done () => isTrue rfl
  | .failed _ | .unfinished => isFalse nofun

namespace Solver

variable {s : Solver .idle}

/-- Announcements change nothing. -/
theorem perform_idle (s : Solver .idle) (t : Task) :
    s.perform t = (⟨(s.core.perform t).1, s.memory⟩, (s.core.perform t).2) := by
  cases t <;> rfl

/-- What holds of a state and the tasks to be done, and is kept by every task, holds at the end of a
run. Where the last task has failed, what a failure entails holds. -/
theorem settle_invariant (fuel : Nat) {I : Core → List Task → Prop} {E : Core → Prop}
    (hok : ∀ c t rest ts, I c (t :: rest) → (c.perform t).2 = .ok ts →
      I (c.perform t).1 (ts ++ rest))
    (herr : ∀ c t rest e, I c (t :: rest) → (c.perform t).2 = .error e → E (c.perform t).1)
    {agenda : List Task} (h : I s.core agenda) :
    match (s.settle fuel agenda).2 with
    | .done _ => I (s.settle fuel agenda).1.core []
    | .failed _ => E (s.settle fuel agenda).1.core
    | .unfinished => ∃ rest, I (s.settle fuel agenda).1.core rest := by
  induction fuel generalizing s agenda with
  | zero =>
    cases agenda with
    | nil => exact h
    | cons t rest => exact ⟨_, h⟩
  | succ fuel ih =>
    cases agenda with
    | nil => exact h
    | cons t rest =>
      unfold settle
      rw [perform_idle]
      cases hr : (s.core.perform t).2 with
      | ok ts => exact ih (hok _ _ _ _ h hr)
      | error e => exact herr _ _ _ _ h hr

/-! ### Runs that come to an end -/

/-- The agenda is carried out and leads to `s'` with the verdict `v`, for every bound that is large
enough. -/
def Settles (s : Solver .idle) (agenda : List Task) (s' : Solver .idle) (v : Verdict Unit) : Prop :=
  v ≠ .unfinished ∧ ∃ fuel, s.settle fuel agenda = (s', v)

/-- The agenda is carried out in finitely many tasks. -/
def Halts (s : Solver .idle) (agenda : List Task) : Prop := ∃ s' v, s.Settles agenda s' v

variable {s' s'' : Solver .idle} {v : Verdict Unit} {t : Task} {ts rest l₁ l₂ : List Task}
  {e : Error}

theorem settles_nil (s : Solver .idle) : s.Settles [] s (.done ()) := ⟨nofun, 0, rfl⟩

/-- The bound may be any larger number. -/
theorem Settles.settle_eq (h : s.Settles l₁ s' v) :
    ∃ fuel, ∀ bound, fuel ≤ bound → s.settle bound l₁ = (s', v) := by
  obtain ⟨hv, fuel, heq⟩ := h
  refine ⟨fuel, fun bound hle => ?_⟩
  obtain ⟨more, rfl⟩ := Nat.exists_eq_add_of_le hle
  exact settle_add heq hv more

theorem Settles.unique (h : s.Settles l₁ s' v) {v' : Verdict Unit} (h' : s.Settles l₁ s'' v') :
    s' = s'' ∧ v = v' := by
  obtain ⟨n, hn⟩ := h.settle_eq
  obtain ⟨k, hk⟩ := h'.settle_eq
  have heq := (hn (n + k) (Nat.le_add_right n k)).symm.trans (hk (n + k) (Nat.le_add_left k n))
  exact Prod.mk.inj heq

theorem settle_zero (ht : s.settle 0 (t :: rest) = (s', v)) : v = .unfinished := by
  cases ht
  rfl

theorem settle_cons_ok (hp : s.perform t = (s', .ok ts)) (n : Nat) :
    s.settle (n + 1) (t :: rest) = s'.settle n (ts ++ rest) := by
  rw [settle, hp]

theorem settle_cons_error (hp : s.perform t = (s', .error e)) (n : Nat) :
    s.settle (n + 1) (t :: rest) = (s', .failed e) := by
  rw [settle, hp]

theorem settles_cons_ok (hp : s.perform t = (s', .ok ts)) :
    s.Settles (t :: rest) s'' v ↔ s'.Settles (ts ++ rest) s'' v := by
  constructor
  · rintro ⟨hv, fuel, heq⟩
    cases fuel with
    | zero => exact absurd (settle_zero heq) hv
    | succ n => exact ⟨hv, n, (settle_cons_ok hp n).symm.trans heq⟩
  · rintro ⟨hv, n, heq⟩
    exact ⟨hv, n + 1, (settle_cons_ok hp n).trans heq⟩

theorem settles_cons_error (hp : s.perform t = (s', .error e)) :
    s.Settles (t :: rest) s'' v ↔ s'' = s' ∧ v = .failed e := by
  constructor
  · rintro ⟨hv, fuel, heq⟩
    cases fuel with
    | zero => exact absurd (settle_zero heq) hv
    | succ n =>
      cases (settle_cons_error hp n).symm.trans heq
      exact ⟨rfl, rfl⟩
  · rintro ⟨rfl, rfl⟩
    exact ⟨nofun, 1, settle_cons_error hp 0⟩

/-- When the first part of an agenda is done, the second one follows. -/
theorem Settles.append (h : s.Settles l₁ s' (.done ())) (h' : s'.Settles l₂ s'' v) :
    s.Settles (l₁ ++ l₂) s'' v := by
  obtain ⟨-, fuel, heq⟩ := h
  induction fuel generalizing s l₁ with
  | zero =>
    cases l₁ with
    | nil =>
      cases heq
      exact h'
    | cons t rest => exact absurd (settle_zero heq) nofun
  | succ n ih =>
    cases l₁ with
    | nil =>
      cases heq
      exact h'
    | cons t rest =>
      rw [settle] at heq
      split at heq <;> rename_i hp
      · rw [List.cons_append, settles_cons_ok hp, ← List.append_assoc]
        exact ih heq
      · cases heq

/-- A failure in the first part of an agenda ends it. -/
theorem Settles.append_failed (h : s.Settles l₁ s' (.failed e)) (l₂ : List Task) :
    s.Settles (l₁ ++ l₂) s' (.failed e) := by
  obtain ⟨-, fuel, heq⟩ := h
  induction fuel generalizing s l₁ with
  | zero => cases l₁ <;> cases heq
  | succ n ih =>
    cases l₁ with
    | nil => cases heq
    | cons t rest =>
      rw [settle] at heq
      split at heq <;> rename_i hp
      · rw [List.cons_append, settles_cons_ok hp, ← List.append_assoc]
        exact ih heq
      · cases heq
        exact (settles_cons_error hp).2 ⟨rfl, rfl⟩

theorem Halts.append (h : s.Halts l₁) (h' : ∀ s', s.Settles l₁ s' (.done ()) → s'.Halts l₂) :
    s.Halts (l₁ ++ l₂) := by
  obtain ⟨s', v, hs⟩ := h
  cases v with
  | done =>
    obtain ⟨s'', v, hs'⟩ := h' s' hs
    exact ⟨s'', v, hs.append hs'⟩
  | failed e => exact ⟨s', .failed e, hs.append_failed l₂⟩
  | unfinished => exact absurd rfl hs.1

/-- An agenda is carried out if each of its tasks is, in every state. -/
theorem halts_of_forall (h : ∀ t ∈ l₁, ∀ s : Solver .idle, s.Halts [t]) (s : Solver .idle) :
    s.Halts l₁ := by
  induction l₁ generalizing s with
  | nil => exact ⟨s, .done (), settles_nil s⟩
  | cons t rest ih =>
    refine (h t List.mem_cons_self s).append fun s' _ => ?_
    exact ih (fun t' ht' => h t' (List.mem_cons_of_mem t ht')) s'

/-- The solver after some steps, each with its own bound on the number of tasks. -/
def steps (s : Solver .idle) (bounds : List Nat) : Solver .idle :=
  bounds.foldl (fun s fuel => (s.step fuel).1) s

end Solver

end PointsTo
