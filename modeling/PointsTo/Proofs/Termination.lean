import Mathlib.Data.Set.Card
import PointsTo.Proofs.Finiteness
import PointsTo.Proofs.Solver.Obligations

/-!
# Termination

Every run without plugins comes to an end. What a task calls for is of lower rank (`Task.rank`), so
that only draining the worklist could go on forever. But each item that is taken up either brings a
fact that did not hold before, of which there are finitely many, or leaves a shorter worklist.

* `Core.perform_rank`: the tasks that a task calls for are of lower rank;
* `Core.missing`: how many derived facts have yet to be found;
* `Solver.next_decreases`: taking up an item lowers this number, or else the worklist gets shorter;
* `Solver.terminates`: whole runs and single steps end, and after finitely many steps nothing is
  left on the worklist.
-/

namespace PointsTo

/-- A bound on the depth to which tasks call for tasks. Draining the worklist calls for itself. -/
def Task.rank : Task → Nat
  | .announce _ | .statistics | .bind _ | .dispatch _ _ _ => 0
  | .react _ _ _ | .record _ _ => 1
  | .exec _ _ _ | .wake _ _ _ => 2
  | .reach _ => 3
  | .next | .enter _ => 4
  | .begin => 5
  | .drain => 6

theorem Task.rank_le_five {t : Task} (ht : t ≠ .drain) : t.rank ≤ 5 := by
  cases t with
  | drain => exact absurd rfl ht
  | _ => simp [rank]

namespace Core

variable {q : Problem} {c c' : Core} {t : Task} {ts : List Task} {f : Fact}

/-! ### Ranks -/

/-- Every task that an outcome calls for is of a rank below `n`. -/
def Outcome.Below (r : Outcome) (n : Nat) : Prop :=
  ∀ ts, r.2 = .ok ts → ∀ t ∈ ts, t.rank < n

theorem below_proceed {n : Nat} (h : ∀ t ∈ ts, t.rank < n) : (c.proceed ts).Below n := by
  rintro _ ⟨⟩
  exact h

theorem below_nil (c : Core) (n : Nat) : (c.proceed []).Below n :=
  below_proceed (by simp)

theorem below_lowering {n : Nat} {k : Core → Outcome} (h : ∀ c₁, (k c₁).Below n) (m : MethodId) :
    (c.lowering m k).Below n := by
  unfold lowering
  split
  · exact h _
  · exact nofun

theorem below_watch (c : Core) (m : CtxMethod) (v : VarId) (s : StmtId) (b : Bool) :
    (c.watch m v s b).Below 2 := by
  have hreact : ∀ (c₁ : Core) (os : PointsToSet),
      (if os.isEmpty then c₁.proceed [] else c₁.proceed [.react m s os]).Below 2 := by
    intro c₁ os
    split
    · exact below_nil _ _
    · exact below_proceed (by simp [Task.rank])
  exact hreact _ _

theorem below_execCall (c : Core) (m : CtxMethod) (s : StmtId) (id : SiteId) (b : Bool) :
    (c.execCall m s id b).Below 2 := by
  unfold execCall
  simp only
  split
  · exact below_nil _ _
  · exact below_nil _ _
  · exact below_watch _ m _ s b
  · exact below_watch _ m _ s b
  · exact below_nil _ _
  · exact below_nil _ _
  · exact below_proceed (by simp [Task.rank])

theorem below_exec (c : Core) (m : CtxMethod) (s : StmtId) (b : Bool) : (c.exec m s b).Below 2 := by
  unfold exec
  split
  · exact below_nil _ _
  · exact below_nil _ _
  · exact below_nil _ _
  · exact below_watch c m _ s b
  · exact below_watch c m _ s b
  · exact below_execCall c m s _ b

theorem below_react (c : Core) (m : CtxMethod) (s : StmtId) (os : PointsToSet) :
    (c.react m s os).Below 1 := by
  unfold react
  split
  · exact below_nil _ _
  · exact below_nil _ _
  · split
    · exact below_proceed (by simp [Task.rank])
    · exact below_nil _ _
  all_goals exact below_nil _ _

theorem below_dispatch (c : Core) (m : CtxMethod) (s : CtxSite) (o : Obj) :
    (c.dispatch m s o).Below 0 := by
  unfold dispatch
  simp only
  split
  · exact nofun
  · split
    · exact below_nil _ _
    · refine below_lowering (fun c₁ => ?_) _
      split <;> exact below_nil _ _

theorem below_bind (c : Core) (e : CtxEdge) : (c.bind e).Below 0 := by
  unfold bind
  split
  · exact below_nil _ _
  · refine below_lowering (fun c₁ => ?_) _
    simp only
    split <;> exact below_nil _ _

theorem below_reach (c : Core) (m : CtxMethod) : (c.reach m).Below 3 := by
  have hrun : ∀ body : List StmtId, ∀ t ∈ body.map fun s => Task.exec m s false, t.rank < 3 := by
    simp [Task.rank]
  have hintro : ∀ body, ∀ t ∈ introduction m.method body, t.rank < 3 := by
    simp [introduction, Task.rank]
  have hend : ∀ t ∈ [Task.announce (.newCtxMethod m)], t.rank < 3 := by
    simp [Task.rank]
  unfold reach
  split
  · exact below_nil _ _
  simp only
  split
  · exact below_nil _ _
  refine below_lowering (fun c₁ => ?_) _
  split
  · exact below_proceed (List.forall_mem_append.2 ⟨hrun _, hend⟩)
  · exact below_proceed (List.forall_mem_append.2
      ⟨List.forall_mem_append.2 ⟨hintro _, hrun _⟩, hend⟩)

theorem below_takeObjects (c : Core) (p : Pointer) (os : PointsToSet) :
    (c.takeObjects p os).Below 4 := by
  unfold takeObjects
  simp only
  split
  · exact below_nil _ _
  · split
    · exact below_nil _ _
    · exact below_proceed (by simp [Task.rank])

theorem below_next (c : Core) : c.next.Below 4 := by
  unfold next
  split
  · exact below_nil _ _
  · simp only
    split
    · exact below_takeObjects _ _ _
    · rename_i m e _
      rcases takeEdge_spec _ m e with ⟨-, heq⟩ | ⟨-, heq⟩ <;> rw [heq]
      · exact below_nil _ _
      · exact below_proceed (by simp [Task.rank])

theorem below_begin (c : Core) : c.begin.Below 5 := by
  unfold begin
  split
  · exact below_nil _ _
  · refine below_proceed (List.forall_mem_cons.2 ⟨by simp [Task.rank], fun t ht => ?_⟩)
    obtain ⟨m, -, ht⟩ := List.mem_flatMap.1 ht
    simp only [List.mem_cons, List.not_mem_nil, or_false] at ht
    rcases ht with rfl | rfl <;> simp [Task.rank]

/-- The tasks that a task calls for are of lower rank, draining apart. -/
theorem perform_rank (c : Core) (ht : t ≠ .drain) : (c.perform t).Below t.rank := by
  cases t with
  | begin => exact below_begin c
  | reach m => exact below_reach c m
  | enter m => exact below_nil _ _
  | exec m s b => exact below_exec c m s b
  | react m s os => exact below_react c m s os
  | dispatch m s o => exact below_dispatch c m s o
  | wake ctx v delta => exact below_proceed (List.forall_mem_map.2 fun s _ => Nat.lt_succ_self 1)
  | next => exact below_next c
  | drain => exact absurd rfl ht
  | record m e => exact below_proceed (by simp [Task.rank])
  | bind e => exact below_bind c e
  | announce e => exact below_nil _ _
  | statistics => exact below_nil _ _

end Core

namespace Solver

/-- Tasks other than draining come to an end, in every state. -/
theorem halts_of_rank {t : Task} (ht : t ≠ .drain) (s : Solver .idle) : s.Halts [t] := by
  induction hn : t.rank using Nat.strong_induction_on generalizing t s with
  | _ n ih =>
    cases hr : (s.core.perform t).2 with
    | error e =>
      have hp : s.perform t = (_, .error e) := (s.perform_idle t).trans (by rw [hr])
      exact ⟨_, _, (settles_cons_error hp).2 ⟨rfl, rfl⟩⟩
    | ok ts =>
      have hp : s.perform t = (_, .ok ts) := (s.perform_idle t).trans (by rw [hr])
      have hts : ∀ t' ∈ ts, ∀ s' : Solver .idle, s'.Halts [t'] := by
        intro t' ht' s'
        have hlt := Core.perform_rank s.core ht ts hr t' ht'
        refine ih t'.rank (hn ▸ hlt) ?_ s' rfl
        rintro rfl
        replace hlt : 6 < t.rank := hlt
        have hle := t.rank_le_five ht
        omega
      obtain ⟨s', v, hs'⟩ := halts_of_forall hts ⟨(s.core.perform t).1, s.memory⟩
      refine ⟨s', v, (settles_cons_ok hp).2 ?_⟩
      rw [List.append_nil]
      exact hs'

end Solver

/-! ### What is missing -/

/-- How many of the derived facts that go through the worklist do not hold yet. -/
noncomputable def Core.missing (q : Problem) (c : Core) : Nat :=
  {f | (q.Derives f ∧ f.IsWork) ∧ ¬ c.Holds f}.ncard

namespace Core

variable {q : Problem} {c c' : Core} {f : Fact}

theorem finite_missing (q : Problem) (c : Core) :
    {f | (q.Derives f ∧ f.IsWork) ∧ ¬ c.Holds f}.Finite :=
  q.finite_derives_isWork.subset fun _ hf => hf.1

theorem missing_congr (h : ∀ f, c'.Holds f ↔ c.Holds f) : c'.missing q = c.missing q := by
  simp only [missing, h]

theorem missing_lt (h : ∀ f, c.Holds f → c'.Holds f) (hf : q.Derives f) (hw : f.IsWork)
    (hold : ¬ c.Holds f) (hnew : c'.Holds f) : c'.missing q < c.missing q := by
  refine Set.ncard_lt_ncard ?_ (finite_missing q c)
  refine ⟨fun f hf => ⟨hf.1, fun hc => hf.2 (h f hc)⟩, fun hsub => ?_⟩
  exact (hsub ⟨⟨hf, hw⟩, hold⟩).2 hnew

end Core

namespace Solver

variable {q : Problem} {s s' : Solver .idle} {agenda : List Task} {f : Fact}

/-- What every task keeps as it advances holds when an agenda is done. -/
theorem Settles.advances {I : Core → List Task → Prop} (h : s.Settles agenda s' (.done ()))
    (hs : s.core.Grounded q) (ha : ∀ t ∈ agenda, t.Justified q s.core)
    (hI : ∀ c c' t rest ts, Core.Advances q t c c' ts → I c (t :: rest) → I c' (ts ++ rest))
    (h₀ : I s.core agenda) : I s'.core [] := by
  obtain ⟨-, fuel, heq⟩ := h
  have hinv := settle_invariant (s := s) fuel
    (I := fun c ts => (c.Grounded q ∧ ∀ t ∈ ts, t.Justified q c) ∧ I c ts)
    (E := fun _ => True) ?_ (fun _ _ _ _ _ _ => trivial) ⟨⟨hs, ha⟩, h₀⟩
  · rw [heq] at hinv
    exact hinv.2
  · rintro c t rest ts ⟨⟨hc, hts⟩, hc'⟩ hok
    have hok : c.perform t = ((c.perform t).1, .ok ts) := Prod.ext rfl hok
    exact ⟨hc.step hts hok,
      hI _ _ _ _ _ (Core.perform_advances hc (hts t List.mem_cons_self) hok) hc'⟩

/-- What holds, or is a call edge that is to be recorded, holds when the agenda is done. -/
theorem Settles.holds (h : s.Settles agenda s' (.done ())) (hs : s.core.Grounded q)
    (ha : ∀ t ∈ agenda, t.Justified q s.core)
    (hf : s.core.Holds f ∨ ∃ m e, .record m e ∈ agenda ∧ f = .edge m e) : s'.core.Holds f := by
  have hend := h.advances (I := fun c ts => c.Holds f ∨ ∃ m e, .record m e ∈ ts ∧ f = .edge m e)
    hs ha ?_ hf
  · rcases hend with hf | ⟨m, e, he, -⟩
    · exact hf
    · exact absurd he List.not_mem_nil
  · rintro c c' t rest ts hadv (hf | ⟨m, e, he, rfl⟩)
    · exact .inl (hadv.holds f hf)
    · rcases List.mem_cons.1 he with rfl | he
      · exact .inl (hadv.recorded m e rfl)
      · exact .inr ⟨m, e, List.mem_append_right _ he, rfl⟩

theorem Settles.started (h : s.Settles agenda s' (.done ())) (hs : s.core.Grounded q)
    (ha : ∀ t ∈ agenda, t.Justified q s.core) (hst : s.core.started = true) :
    s'.core.started = true :=
  h.advances (I := fun c _ => c.started = true) hs ha
    (fun _ _ _ _ _ hadv => hadv.started) hst

theorem Settles.grounded {v : Verdict Unit} (h : s.Settles agenda s' v) (hs : s.core.Grounded q)
    (ha : ∀ t ∈ agenda, t.Justified q s.core) : s'.core.Grounded q := by
  obtain ⟨-, fuel, heq⟩ := h
  have hend : (s.settle fuel agenda).1.core.Grounded q := (settle_grounded hs ha).1
  rwa [heq] at hend

/-- Taking up an item brings a fact that was missing, or else leaves a shorter worklist. -/
theorem next_decreases (h : s.Settles [.next] s' (.done ())) (hs : s.core.Grounded q)
    (hitems : s.core.worklist.items ≠ []) :
    s'.core.missing q < s.core.missing q ∨ s'.core.missing q = s.core.missing q ∧
      s'.core.worklist.items.length < s.core.worklist.items.length := by
  have hjustified : ∀ t ∈ [Task.next], t.Justified q s.core := by simp [Task.Justified]
  obtain ⟨r, hr⟩ : ∃ r, s.core.next = r := ⟨_, rfl⟩
  obtain ⟨c₁, e | ts⟩ := r
  · have hp : s.perform .next = (⟨c₁, s.memory⟩, .error e) := by
      rw [s.perform_idle, Core.perform, hr]
    exact absurd ((settles_cons_error hp).1 h).2 nofun
  have hp : s.perform .next = (⟨c₁, s.memory⟩, .ok ts) := by
    rw [s.perform_idle, Core.perform, hr]
  have hrest := (settles_cons_ok hp).1 h
  rw [List.append_nil] at hrest
  have hadv : Core.Advances q .next s.core c₁ ts := Core.next_advances hs hr
  obtain ⟨hc₁, hts⟩ := hs.step hjustified hr
  rw [List.append_nil] at hts
  -- a fact that holds after the item was taken up, or is about to be recorded, is not missing
  have hless : ∀ f, q.Derives f → f.IsWork → ¬ s.core.Holds f →
      (c₁.Holds f ∨ ∃ m e, .record m e ∈ ts ∧ f = .edge m e) →
      s'.core.missing q < s.core.missing q := fun f hf hw hold hnew =>
    Core.missing_lt (fun f hf => hrest.holds hc₁ hts (.inl (hadv.holds f hf))) hf hw hold
      (hrest.holds hc₁ hts hnew)
  rcases Core.next_spec s.core with ⟨hnil, -⟩ | ⟨l₁, i, l₂, hsplit, -, htake⟩
  · exact absurd hnil hitems
  -- when nothing is new, only the worklist has changed
  have hsame : c₁ = s.core.remain (l₁ ++ l₂) → ts = [] → s'.core.missing q = s.core.missing q ∧
      s'.core.worklist.items.length < s.core.worklist.items.length := by
    rintro rfl rfl
    obtain ⟨rfl, -⟩ := (settles_nil _).unique hrest
    refine ⟨Core.missing_congr (Core.holds_remain _ _), ?_⟩
    show (l₁ ++ l₂).length < s.core.worklist.items.length
    rw [hsplit, List.length_append, List.length_append, List.length_cons]
    omega
  have hdue : ∀ f, i.Carries f → s.core.Due f := fun f hf => .inr ⟨i, by simp [hsplit], hf⟩
  rcases htake with ⟨p, os, rfl, heq⟩ | ⟨m, e, rfl, heq⟩
  · have hp : ∀ o ∈ os, p ∈ s.core.analysis.heap.pointers.keys := fun o ho =>
      (hs.knows _ (hdue _ (.points ho))).1.1
    rcases Core.takeObjects_spec (c := s.core.remain (l₁ ++ l₂)) hp with
      ⟨-, heq'⟩ | ⟨c₂, ts₂, heq', -, -, ⟨o, ho, hold⟩, hholds, -⟩
    · cases hr.symm.trans (heq.trans heq')
      exact .inr (hsame rfl rfl)
    · cases hr.symm.trans (heq.trans heq')
      refine .inl (hless (.points p o) (hs.derives _ (hdue _ (.points ho))) trivial hold ?_)
      exact .inl ((hholds _).2 (.inr ⟨o, ho, rfl⟩))
  · rcases Core.takeEdge_spec (s.core.remain (l₁ ++ l₂)) m e with ⟨-, heq'⟩ | ⟨hnew, heq'⟩
    · cases hr.symm.trans (heq.trans heq')
      exact .inr (hsame rfl rfl)
    · cases hr.symm.trans (heq.trans heq')
      refine .inl (hless (.edge m e) (hs.derives _ (hdue _ .edge)) trivial (fun he => ?_) ?_)
      · have hold := (hs.tidy.calls.recorded _ _).2 ⟨(m, e), he, rfl, rfl⟩
        exact absurd (hold.symm.trans hnew) nofun
      · exact .inr ⟨m, e, by simp, rfl⟩

/-! ### Whole runs -/

/-- Draining the worklist comes to an end. -/
theorem halts_drain (s : Solver .idle) (hs : s.core.Grounded q) : s.Halts [.drain] := by
  have hp : s.perform .drain = (⟨s.core.drain.1, s.memory⟩, s.core.drain.2) := s.perform_idle _
  by_cases hitems : s.core.worklist.items = []
  · rw [Core.drain, if_pos (List.isEmpty_iff.2 hitems)] at hp
    exact ⟨s, .done (), (settles_cons_ok hp).2 (settles_nil s)⟩
  · rw [Core.drain, if_neg (fun h => hitems (List.isEmpty_iff.1 h))] at hp
    have hnext : s.Halts ([.next] ++ [.drain]) := by
      refine (halts_of_rank (t := .next) nofun s).append fun s' hs' => ?_
      exact halts_drain s' (hs'.grounded hs (by simp [Task.Justified]))
    obtain ⟨s', v, hs'⟩ := hnext
    exact ⟨s', v, (settles_cons_ok hp).2 hs'⟩
termination_by (s.core.missing q, s.core.worklist.items.length)
decreasing_by
  rcases next_decreases hs' hs hitems with hlt | ⟨heq, hlt⟩
  · exact Prod.Lex.left _ _ hlt
  · rw [heq]
    exact Prod.Lex.right _ hlt

/-- An agenda of tasks that need no justification comes to an end. -/
theorem halts_of_grounded (hs : s.core.Grounded q) (ha : ∀ t ∈ agenda, ∀ c, t.Justified q c) :
    s.Halts agenda := by
  induction agenda generalizing s with
  | nil => exact ⟨s, .done (), settles_nil s⟩
  | cons t rest ih =>
    have hfirst : s.Halts [t] := by
      by_cases ht : t = .drain
      · rw [ht]
        exact halts_drain s hs
      · exact halts_of_rank ht s
    refine hfirst.append fun s' hs' => ih (hs'.grounded hs ?_) ?_
    · simpa using ha t List.mem_cons_self s.core
    · exact fun t' ht' => ha t' (List.mem_cons_of_mem t ht')

theorem halts_agenda (hs : s.core.Grounded q) : s.Halts Solver.agenda :=
  halts_of_grounded hs (by simp [Solver.agenda, Task.Justified])

/-! ### Single steps -/

theorem settles_begin_of_started (h : s.core.started = true) : s.Settles [.begin] s (.done ()) := by
  have hp : s.perform .begin = (⟨s.core.begin.1, s.memory⟩, s.core.begin.2) := s.perform_idle _
  rw [Core.begin, if_pos h] at hp
  exact (settles_cons_ok hp).2 (settles_nil s)

/-- When the start of a run is done, the run has started. -/
theorem Settles.started_of_begin (h : s.Settles [.begin] s' (.done ())) (hs : s.core.Grounded q) :
    s'.core.started = true := by
  have hbegin : ∀ t ∈ [Task.begin], t.Justified q s.core := by simp [Task.Justified]
  by_cases hst : s.core.started = true
  · exact h.started hs hbegin hst
  · obtain ⟨ts, hr⟩ : ∃ ts, s.core.begin = ({ s.core with started := true }, .ok ts) := by
      rw [Core.begin, if_neg hst]
      exact ⟨_, rfl⟩
    have hp : s.perform .begin = (⟨{ s.core with started := true }, s.memory⟩, .ok ts) := by
      rw [s.perform_idle, Core.perform, hr]
    obtain ⟨hs₁, hts⟩ := hs.step hbegin hr
    exact ((settles_cons_ok hp).1 h).started hs₁ hts rfl

/-- A step is a start and the taking up of an item. -/
theorem step_eq {s₁ s₂ : Solver .idle} {v : Verdict Unit} (h₁ : s.Settles [.begin] s₁ (.done ()))
    (h₂ : s₁.Settles [.next] s₂ v) : ∃ fuel, ∀ bound, fuel ≤ bound → s.step bound =
      (s₂, match v with
        | .done () => .done !s₁.core.worklist.items.isEmpty
        | .failed e => .failed e
        | .unfinished => .unfinished) := by
  obtain ⟨n, hn⟩ := h₁.settle_eq
  obtain ⟨k, hk⟩ := h₂.settle_eq
  refine ⟨n + k, fun bound hle => ?_⟩
  unfold step start
  rw [hn bound (by omega)]
  simp only
  rw [hk bound (by omega)]
  cases v <;> rfl

/-- With every bound that is large enough, a number of steps take up an item each, and the next one
finds none or fails. -/
def StepsEnd (s : Solver .idle) : Prop :=
  ∃ n fuel, ∀ bound, fuel ≤ bound →
    (∀ i < n, ((s.steps (List.replicate i bound)).step bound).2 = .done true) ∧
      (((s.steps (List.replicate n bound)).step bound).2 = .done false ∨
        ∃ e, ((s.steps (List.replicate n bound)).step bound).2 = .failed e)

theorem StepsEnd.of_last {v : Verdict Bool}
    (h : ∃ fuel, ∀ bound, fuel ≤ bound → s.step bound = (s', v))
    (hv : v = .done false ∨ ∃ e, v = .failed e) : s.StepsEnd := by
  obtain ⟨fuel, hstep⟩ := h
  refine ⟨0, fuel, fun bound hle => ⟨nofun, ?_⟩⟩
  show (s.step bound).2 = .done false ∨ ∃ e, (s.step bound).2 = .failed e
  rwa [hstep bound hle]

theorem StepsEnd.of_step (h : ∃ fuel, ∀ bound, fuel ≤ bound → s.step bound = (s', .done true))
    (h' : s'.StepsEnd) : s.StepsEnd := by
  obtain ⟨fuel, hstep⟩ := h
  obtain ⟨n, fuel', hend⟩ := h'
  refine ⟨n + 1, fuel + fuel', fun bound hle => ?_⟩
  have hfirst := hstep bound (by omega)
  have hsteps : ∀ i, s.steps (List.replicate (i + 1) bound) =
      s'.steps (List.replicate i bound) := by
    intro i
    show (s.step bound).1.steps (List.replicate i bound) = _
    rw [hfirst]
  obtain ⟨htrue, hlast⟩ := hend bound (by omega)
  refine ⟨fun i hi => ?_, ?_⟩
  · cases i with
    | zero =>
      show (s.step bound).2 = .done true
      rw [hfirst]
    | succ i =>
      rw [hsteps]
      exact htrue i (by omega)
  · rw [hsteps]
    exact hlast

/-- Steps come to an end once the run has started. -/
theorem stepsEnd_of_begin (s s₁ : Solver .idle) (h : s.Settles [.begin] s₁ (.done ()))
    (hs₁ : s₁.core.Grounded q) (hst : s₁.core.started = true) : s.StepsEnd := by
  have hnext : ∀ t ∈ [Task.next], t.Justified q s₁.core := by simp [Task.Justified]
  obtain ⟨s₂, v, h₂⟩ := halts_of_rank (t := .next) nofun s₁
  have hstep := step_eq h h₂
  cases v with
  | unfinished => exact absurd rfl h₂.1
  | failed e => exact .of_last hstep (.inr ⟨e, rfl⟩)
  | done =>
    by_cases hitems : s₁.core.worklist.items = []
    · exact .of_last hstep (.inl (by simp [hitems]))
    · have hmore : (!s₁.core.worklist.items.isEmpty) = true := by simpa using hitems
      simp only [hmore] at hstep
      have hst₂ := h₂.started hs₁ hnext hst
      exact .of_step hstep (stepsEnd_of_begin s₂ s₂ (settles_begin_of_started hst₂)
        (h₂.grounded hs₁ hnext) hst₂)
termination_by (s₁.core.missing q, s₁.core.worklist.items.length)
decreasing_by
  rcases next_decreases h₂ hs₁ hitems with hlt | ⟨heq, hlt⟩
  · exact Prod.Lex.left _ _ hlt
  · rw [heq]
    exact Prod.Lex.right _ hlt

theorem stepsEnd_of_grounded (hs : s.core.Grounded q) : s.StepsEnd := by
  have hbegin : ∀ t ∈ [Task.begin], t.Justified q s.core := by simp [Task.Justified]
  obtain ⟨s₁, v, h₁⟩ := halts_of_rank (t := .begin) nofun s
  cases v with
  | unfinished => exact absurd rfl h₁.1
  | done => exact stepsEnd_of_begin s s₁ h₁ (h₁.grounded hs hbegin) (h₁.started_of_begin hs)
  | failed e =>
    obtain ⟨fuel, hstart⟩ := h₁.settle_eq
    have hstep : ∀ bound, fuel ≤ bound → s.step bound = (s₁, .failed e) := by
      intro bound hle
      unfold step start
      rw [hstart bound hle]
    exact .of_last ⟨fuel, hstep⟩ (.inr ⟨e, rfl⟩)

/-- **Termination.** Runs to the end are finite, and so are runs step by step: after finitely many
steps that take up an item each, a step finds the worklist empty or fails. How many it takes does
not depend on the bounds, if these are large enough. -/
theorem terminates (q : Problem) (order : WorklistOrder) :
    (∃ fuel, ∀ bound, fuel ≤ bound → ((q.solver order).solve bound).2 ≠ .unfinished) ∧
      ∃ n fuel, ∀ bound, fuel ≤ bound →
        (∀ i < n, (((q.solver order).steps (List.replicate i bound)).step bound).2 = .done true) ∧
          ((((q.solver order).steps (List.replicate n bound)).step bound).2 = .done false ∨
            ∃ e, (((q.solver order).steps (List.replicate n bound)).step bound).2 = .failed e) := by
  have hs := q.grounded_solver order
  refine ⟨?_, stepsEnd_of_grounded hs⟩
  obtain ⟨s', v, hsettles⟩ := halts_agenda hs
  obtain ⟨fuel, hsolve⟩ := hsettles.settle_eq
  refine ⟨fuel, fun bound hle => ?_⟩
  show ((q.solver order).settle bound agenda).2 ≠ .unfinished
  rw [hsolve bound hle]
  exact hsettles.1

end Solver

end PointsTo
