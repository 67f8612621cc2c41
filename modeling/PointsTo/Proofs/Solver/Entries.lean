import PointsTo.Proofs.Solver.Footprint
import PointsTo.Proofs.Termination

/-!
# The entries of the call graph

Only the start of a run calls for the listing of entries, and no other task touches the list. So the
entries that are listed are the first ones of the problem, in order, and all of them once the start
has ended well.

* `Core.listed_perform`: only the tasks that list an entry change the list;
* `Core.entry?_eq_none`: only the start of a run calls for such tasks;
* `Core.Enlists`: what the entries are that are listed or still to be listed;
* `Solver.entries_of_solve`: the list at the end of a run.
-/

namespace PointsTo

/-- The method that the task lists as an entry. -/
def Task.entry? : Task → Option CtxMethod
  | .enter m => some m
  | _ => none

namespace Core

variable {c : Core} {t : Task} {ts rest : List Task}
  {L : List CtxMethod → List CtxMethod → Prop}

/-- The entries that are listed in the call graph. -/
def listed (c : Core) : List CtxMethod := c.analysis.calls.entries

theorem listed_perform (c : Core) (ht : t.entry? = none) :
    (c.perform t).1.listed = c.listed := by
  show (c.perform t).1.analysis.calls.entries = c.analysis.calls.entries
  rw [perform_calls]
  cases t with
  | enter m => cases ht
  | exec m s injected =>
    rw [callsAfter]
    split <;> rfl
  | record m e => exact CallGraph.entries_addEdge
  | _ => rfl

/-- No task but the start of a run calls for the start of a run, or for an entry to be listed. -/
theorem entry?_eq_none (hbegin : t ≠ .begin) (h : (c.perform t).2 = .ok ts) :
    ∀ t' ∈ ts, t' ≠ .begin ∧ t'.entry? = none := by
  intro t' ht'
  by_cases hdrain : t = .drain
  · obtain ⟨ts', heq, hts⟩ := drain_spec c
    rw [hdrain, perform, heq] at h
    cases h
    rcases hts t' ht' with rfl | rfl <;> exact ⟨by simp, rfl⟩
  · have hle : t.rank ≤ 4 := by
      cases t with
      | begin => exact absurd rfl hbegin
      | drain => exact absurd rfl hdrain
      | _ => simp [Task.rank]
    have hlt : t'.rank < 4 := Nat.lt_of_lt_of_le (perform_rank c hdrain ts h t' ht') hle
    cases t' with
    | begin | enter => simp [Task.rank] at hlt
    | _ => exact ⟨by simp, rfl⟩

theorem started_perform (hs : c.started = true) (t : Task) : (c.perform t).1.started = true := by
  rw [perform_started]
  cases t with
  | begin => rfl
  | _ => exact hs

/-- The start of the run does not lie ahead, and `L` holds of the entries that are listed and those
that are still to be listed. -/
def Enlists (L : List CtxMethod → List CtxMethod → Prop) (c : Core) (tasks : List Task) : Prop :=
  (.begin ∈ tasks → c.started = true) ∧ L c.listed (tasks.filterMap Task.entry?)

namespace Enlists

/-- A task keeps what listing one entry keeps. -/
theorem perform (hL : ∀ l m pending, L l (m :: pending) → L (l ++ [m]) pending)
    (h : c.Enlists L (t :: rest)) (hok : (c.perform t).2 = .ok ts) :
    (c.perform t).1.Enlists L (ts ++ rest) := by
  obtain ⟨hs, hl⟩ := h
  by_cases hbegin : t = .begin
  · -- a run that has started is not started again
    subst hbegin
    have hnothing : c.perform .begin = (c, .ok []) := by
      simp only [Core.perform, begin, hs List.mem_cons_self, if_true]
      rfl
    rw [hnothing] at hok ⊢
    cases hok
    exact ⟨fun hb => hs (List.mem_cons_of_mem _ hb), hl⟩
  · have hts := entry?_eq_none hbegin hok
    have hnone : ts.filterMap Task.entry? = [] :=
      List.filterMap_eq_nil_iff.2 fun t' ht' => (hts t' ht').2
    refine ⟨fun hb => ?_, ?_⟩
    · rcases List.mem_append.1 hb with hb | hb
      · exact absurd rfl (hts _ hb).1
      · exact started_perform (hs (List.mem_cons_of_mem t hb)) t
    · rw [List.filterMap_append, hnone, List.nil_append]
      cases hentry : t.entry? with
      | none =>
        rw [List.filterMap_cons_none hentry] at hl
        rwa [listed_perform c hentry]
      | some m =>
        cases t with
        | enter m' => exact hL _ m' _ hl
        | _ => cases hentry

/-- A task that fails lists nothing. -/
theorem fail {e : Error} (h : c.Enlists L (t :: rest)) (herr : (c.perform t).2 = .error e) :
    ∃ pending, L (c.perform t).1.listed pending := by
  have hentry : t.entry? = none := by
    cases t with
    | enter m => cases herr
    | _ => rfl
  rw [listed_perform c hentry]
  exact ⟨_, h.2⟩

/-- At the start, all entries are to be listed. -/
theorem begin (hs : c.started = false) (hl : c.listed = [])
    (hrest : rest.filterMap Task.entry? = []) (hok : (c.perform .begin).2 = .ok ts) :
    (c.perform .begin).1.Enlists (fun l pending => l ++ pending = c.entries.map (CtxMethod.mk []))
      (ts ++ rest) := by
  have hentries : ∀ l : List MethodId,
      (l.flatMap fun m => [Task.reach ⟨[], m⟩, Task.enter ⟨[], m⟩]).filterMap Task.entry? =
        l.map (CtxMethod.mk []) := fun l => by
    induction l with
    | nil => rfl
    | cons m l ih => exact congrArg (CtxMethod.mk [] m :: ·) ih
  have hbegin : c.perform .begin = ({ c with started := true }, .ok (.announce .start ::
      c.entries.flatMap fun m => [.reach ⟨[], m⟩, .enter ⟨[], m⟩])) := by
    simp only [Core.perform, Core.begin, hs, Bool.false_eq_true, if_false]
    rfl
  rw [hbegin] at hok ⊢
  cases hok
  refine ⟨fun _ => rfl, ?_⟩
  show c.listed ++ _ = _
  rw [hl, List.nil_append, List.filterMap_append, hrest, List.append_nil,
    List.filterMap_cons_none rfl, hentries]

end Enlists

/-- The first ones of `all` are listed, and none before the start. -/
structure ListsFrom (all : List CtxMethod) (c : Core) : Prop where
  isPrefix : c.listed <+: all
  unstarted : c.started = false → c.listed = []

end Core

namespace Solver

variable {s : Solver .idle} {agenda : List Task} {fuel : Nat}

theorem settle_started (hs : s.core.started = true) (fuel : Nat) (agenda : List Task) :
    (s.settle fuel agenda).1.core.started = true := by
  have hinv := @settle_invariant s fuel (fun c _ => c.started = true) (fun c => c.started = true)
    (fun c t _ _ hs _ => Core.started_perform hs t) (fun c t _ _ hs _ => Core.started_perform hs t)
    agenda hs
  cases hv : (s.settle fuel agenda).2 with
  | done | failed =>
    rw [hv] at hinv
    exact hinv
  | unfinished =>
    rw [hv] at hinv
    exact hinv.elim fun _ h => h

/-- What listing one entry keeps, a run keeps. When it ends well, no entry is left to be listed. -/
theorem settle_enlists {L : List CtxMethod → List CtxMethod → Prop}
    (hL : ∀ l m pending, L l (m :: pending) → L (l ++ [m]) pending)
    (h : s.core.Enlists L agenda) (fuel : Nat) :
    (∃ pending, L (s.settle fuel agenda).1.core.listed pending) ∧
      ((s.settle fuel agenda).2 = .done () → L (s.settle fuel agenda).1.core.listed []) := by
  have hinv := settle_invariant fuel (I := Core.Enlists L)
    (E := fun c => ∃ pending, L c.listed pending)
    (fun c t rest ts h => h.perform hL) (fun c t rest e h => h.fail) h
  cases hv : (s.settle fuel agenda).2 with
  | done =>
    rw [hv] at hinv
    exact ⟨⟨[], hinv.2⟩, fun _ => hinv.2⟩
  | failed e =>
    rw [hv] at hinv
    refine ⟨hinv, ?_⟩
    rintro ⟨⟩
  | unfinished =>
    rw [hv] at hinv
    obtain ⟨rest, -, hl⟩ := hinv
    refine ⟨⟨_, hl⟩, ?_⟩
    rintro ⟨⟩

/-- Without the start, and without entries to be listed, the list stays as it is. -/
theorem settle_listed (hs : .begin ∈ agenda → s.core.started = true)
    (hagenda : agenda.filterMap Task.entry? = []) (fuel : Nat) :
    (s.settle fuel agenda).1.core.listed = s.core.listed := by
  have h : s.core.Enlists (fun l pending => l = s.core.listed ∧ pending = []) agenda :=
    ⟨hs, rfl, hagenda⟩
  obtain ⟨pending, hl, -⟩ := (settle_enlists (by rintro _ _ _ ⟨-, ⟨⟩⟩) h fuel).1
  exact hl

/-- A run whose start lies ahead lists the first entries, and all of them if it ends well. -/
theorem settle_begin (hs : s.core.started = false) (hl : s.core.listed = []) (rest : List Task)
    (hrest : rest.filterMap Task.entry? = []) (fuel : Nat) :
    (s.settle fuel (.begin :: rest)).1.core.ListsFrom (s.core.entries.map (CtxMethod.mk [])) ∧
      ((s.settle fuel (.begin :: rest)).2 = .done () →
        (s.settle fuel (.begin :: rest)).1.core.started = true ∧
        (s.settle fuel (.begin :: rest)).1.core.listed = s.core.entries.map (CtxMethod.mk [])) := by
  cases fuel with
  | zero => exact ⟨⟨hl ▸ List.nil_prefix, fun _ => hl⟩, nofun⟩
  | succ n =>
    have hp := perform_idle s .begin
    cases hok : (s.core.perform .begin).2 with
    | error e =>
      simp only [Core.perform, Core.begin, hs] at hok
      cases hok
    | ok ts =>
      rw [hok] at hp
      rw [settle_cons_ok hp]
      have hstarted := settle_started (s := ⟨(s.core.perform .begin).1, s.memory⟩)
        (s.core.perform_started .begin) n (ts ++ rest)
      obtain ⟨⟨pending, hlisted⟩, hdone⟩ := settle_enlists
        (s := ⟨(s.core.perform .begin).1, s.memory⟩)
        (fun l m pending h => (List.append_assoc l [m] pending).trans h)
        (Core.Enlists.begin hs hl hrest hok) n
      refine ⟨⟨⟨pending, hlisted⟩, fun hno => ?_⟩, fun h => ⟨hstarted, ?_⟩⟩
      · rw [hno] at hstarted
        cases hstarted
      · rw [← hdone h, List.append_nil]

/-- A run that ends without error has listed the entries of the problem, in order. -/
theorem entries_of_solve {q : Problem} {order : WorklistOrder}
    (h : (q.solver order).solve fuel = (s, .done ())) :
    s.core.analysis.calls.entries = q.entries.map (CtxMethod.mk []) := by
  have hend := (settle_begin (s := q.solver order) rfl rfl
    [.drain, .announce .finish, .drain, .statistics] rfl fuel).2
  have hrun : (q.solver order).settle fuel
      [.begin, .drain, .announce .finish, .drain, .statistics] = (s, .done ()) := h
  rw [hrun] at hend
  exact (hend rfl).2

end Solver

end PointsTo
