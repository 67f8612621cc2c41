import PointsTo.Proofs.Chronicle
import PointsTo.Proofs.Plugin.Sparing
import PointsTo.Proofs.Solver.Answered
import PointsTo.Proofs.Solver.Footprint

/-!
# Ignored methods stay opaque

Plugins can have methods ignored when a run starts. The solver then treats calls of such a method
like other calls as far as the call graph is concerned, and never looks into the method: it lowers
no body, tells of no statement, and binds nothing, be the call static, special or dispatched.

* `Core.code_perform_of_ignored`: no task of the solver touches the code of an ignored method;
* `Solver.Opaque`: what can be seen of ignored methods in the course of a run;
* `Solver.Linked`: there are the edges of all calls that were run, also those to ignored methods;
* `Solver.solve_ignores`: in every state of a run the ignored methods are opaque, and when it ends
  well, all calls are linked.
-/

namespace PointsTo

/-! ### One task -/

namespace Core

variable {c : Core} {t : Task} {m : MethodId}

theorem code_perform_of_ignored (hm : m ∈ c.ignored) (t : Task) :
    (c.perform t).1.elements.code m = c.elements.code m := by
  have hbefore : (c.elementsBefore t).code m = c.elements.code m := by
    cases t with
    | dispatch caller s o => exact (c.elements.code_dispatch _ _).2 m
    | _ => rfl
  rw [perform_elements (fun e => e.code m) (fun _ => rfl)]
  unfold elementsAfter
  split <;> rename_i hlowered
  · -- another method is lowered
    rename_i m'
    have hne : m ≠ m' := by
      rintro rfl
      obtain ⟨-, hno⟩ := Option.filter_eq_some_iff.1 hlowered
      exact of_decide_eq_true hno hm
    rcases (c.elementsBefore t).code_lower_cases m' with ⟨-, hcode⟩ | ⟨-, _, -, hcode⟩ <;>
      rw [hcode]
    · exact hbefore
    · rw [if_neg hne]
      exact hbefore
  · exact hbefore

theorem noted_perform (hsound : c.elements.Sound) (h : c.elements.Noted) (t : Task) :
    (c.perform t).1.elements.Noted := by
  have hbefore : (c.elementsBefore t).Sound ∧ (c.elementsBefore t).Noted := by
    cases t with
    | dispatch caller s o =>
      exact ⟨hsound.dispatch _ _, h.serve (r := .dispatch _ _) hsound trivial⟩
    | _ => exact ⟨hsound, h⟩
  rw [perform_elements Elements.Noted (fun _ => rfl)]
  unfold elementsAfter
  split
  · exact hbefore.2.serve (r := .lower _) hbefore.1 trivial
  · exact hbefore.2

/-- The announcements that a task calls for are about methods that are not ignored. -/
theorem CallsFor.silent {x : Event} (h : c.CallsFor t (.announce x)) (ht : t ≠ .begin) :
    x ≠ .start ∧ ∀ m ∈ c.ignored, x.isAbout m = false := by
  cases h with
  | start => exact absurd rfl ht
  | @arrival k _ _ hi harrival =>
    have hne : ∀ m ∈ c.ignored, k.method ≠ m := by
      rintro m hm rfl
      exact hi hm
    rcases mem_arrival harrival with heq | ⟨s, -, heq⟩ | ⟨s, -, heq⟩ | heq <;> cases heq
    · exact ⟨by rintro ⟨⟩, fun m hm => decide_eq_false (hne m hm)⟩
    · exact ⟨by rintro ⟨⟩, fun m hm => decide_eq_false (hne m hm)⟩
    · exact ⟨by rintro ⟨⟩, fun m hm => decide_eq_false (hne m hm)⟩
  | unresolved => exact ⟨by rintro ⟨⟩, fun _ _ => rfl⟩
  | objects hi hmem =>
    simp only [onward, List.mem_cons, List.not_mem_nil, or_false, Task.announce.injEq,
      reduceCtorEq] at hmem
    subst hmem
    exact ⟨by rintro ⟨⟩, fun _ _ => rfl⟩
  | edge hi heq => rcases heq with heq | heq <;> cases heq
  | drain heq => rcases heq with heq | heq <;> cases heq
  | record heq =>
    rcases heq with heq | heq <;> cases heq
    exact ⟨by rintro ⟨⟩, fun _ _ => rfl⟩

theorem CallsFor.ne_begin (h : c.CallsFor t .begin) : False := by
  cases h with
  | arrival hm hi harrival =>
    rcases mem_arrival harrival with heq | ⟨s, -, heq⟩ | ⟨s, -, heq⟩ | heq <;> cases heq
  | objects hi hmem => simp [onward] at hmem
  | edge hi heq => rcases heq with heq | heq <;> cases heq
  | drain heq => rcases heq with heq | heq <;> cases heq
  | record heq => rcases heq with heq | heq <;> cases heq

/-- The statements of a body that are to be run are in the body when it was lowered. -/
theorem CallsFor.mem_body {k : CtxMethod} {s : StmtId} (h : c.CallsFor t (.exec k s false)) :
    s ∈ ((c.perform t).1.elements.code k.method).body := by
  cases h with
  | @arrival k' _ hm hi harrival =>
    rcases mem_arrival harrival with heq | ⟨s', -, heq⟩ | ⟨s', hs', heq⟩ | heq <;> cases heq
    have hlowered : c.lowered? (.reach k) = some k.method := by
      have hm' : k ∉ c.analysis.calls.methods := hm
      simp [lowered?, hm', hi]
    rw [perform_elements (fun e => e.code k.method) (fun _ => rfl), elementsAfter, hlowered]
    exact hs'
  | objects hi hmem => simp [onward] at hmem
  | edge hi heq => rcases heq with heq | heq <;> cases heq
  | drain heq => rcases heq with heq | heq <;> cases heq
  | record heq => rcases heq with heq | heq <;> cases heq

/-- A dispatched call of an ignored method puts its edge on the worklist, and nothing else. -/
theorem dispatch_ignored {caller : CtxMethod} {s : CtxSite} {o : Obj} {callee : MethodId}
    (h : (c.found s o).1 = some callee) (hi : callee ∈ c.ignored) :
    (c.dispatch caller s o).2 = .ok [] ∧ (c.dispatch caller s o).1.worklist =
      c.worklist.push (.edge caller (c.edgeAt s (some o) callee)) := by
  rw [dispatch_of_some caller h]
  simp only [hi, if_true]
  exact ⟨rfl, rfl⟩

theorem bind_ignored {e : CtxEdge} (hi : e.callee.method ∈ c.ignored) : c.bind e = (c, .ok []) := by
  unfold bind
  rw [if_pos hi]
  rfl

end Core

/-! ### The states of a run -/

namespace Solver

variable {P : Plugin} {s s' : Solver P} {t : Task} {ts rest agenda : List Task} {fuel : Nat}

/-- What can be seen of the methods that are ignored in the state `s`, to which a run has come from
the tables `e` through the moments `past`. -/
structure Opaque (e : Elements) (s : Solver P) (past : List (Solver P × Task)) : Prop where
  /-- A method that was not built before is not built. -/
  blank : ∀ m ∈ s.core.ignored, e.isBuilt m = false → (e.code m).body = [] →
    (s.core.elements.code m).Blank
  /-- It is not told that the method or a statement of it has become reachable. -/
  silent : ∀ s₁ x, (s₁, .announce x) ∈ past → ∀ m ∈ s.core.ignored, x.isAbout m = false
  /-- A dispatched call sends no object. -/
  unsent : ∀ s₁ caller site o callee, (s₁, .dispatch caller site o) ∈ past →
    (s₁.core.found site o).1 = some callee → callee ∈ s.core.ignored →
    (s₁.perform (.dispatch caller site o)).2 = .ok [] ∧
      (s₁.perform (.dispatch caller site o)).1.core.worklist =
        s₁.core.worklist.push (.edge caller (s₁.core.edgeAt site (some o) callee))
  /-- A call edge to the method has no effect but to be there. -/
  unbound : ∀ s₁ x, (s₁, .bind x) ∈ past → x.callee.method ∈ s.core.ignored →
    s₁.perform (.bind x) = (s₁, .ok [])

/-- Every call that was run in the moments `past` has its edges in the state `s`. -/
def Linked (s : Solver P) (past : List (Solver P × Task)) : Prop :=
  ∀ s₁ m k injected id lhs, (s₁, .exec m k injected) ∈ past →
    s₁.core.elements.Has k (.call id lhs) → s.core.Connects m.ctx id

/-- The methods `ignored` are ignored, and their code is as in the tables `e`. -/
structure Spared (p : Program) (e : Elements) (ignored : OrderedSet MethodId) (s : Solver P) :
    Prop where
  develops : ({ program := p } : Elements).Develops s.core.elements
  ignored_eq : s.core.ignored = ignored
  kept : ∀ m ∈ ignored, (s.core.elements.code m).face = (e.code m).face ∧
    (s.core.elements.code m).body = (e.code m).body

/-- What holds in every moment of a run after its start, when `tasks` are still to be done. -/
structure Steady (J : P.Memory → Prop) (p : Program) (e : Elements)
    (ignored : OrderedSet MethodId) (s : Solver P) (tasks : List Task) : Prop
    extends Spared p e ignored s where
  orderly : s.Orderly tasks
  begun : .begin ∉ tasks
  memory : J s.memory
  noted : s.core.elements.Noted
  minded : ∀ m k, .exec m k false ∈ tasks → s.core.elements.Minds k
  silent : ∀ x, .announce x ∈ tasks → x ≠ .start ∧ ∀ m ∈ ignored, x.isAbout m = false

variable {J : P.Memory → Prop} {p : Program} {e : Elements} {ignored : OrderedSet MethodId}

theorem Spared.blank (h : Spared p e ignored s) {m : MethodId} (hm : m ∈ ignored)
    (hbuilt : e.isBuilt m = false) (hbody : (e.code m).body = []) :
    (s.core.elements.code m).Blank := by
  obtain ⟨hface, hbody'⟩ := h.kept m hm
  exact h.develops.blank ((congrArg Prod.fst hface).trans hbuilt) (hbody'.trans hbody)

/-! ### What tasks keep -/

/-- What a plugin does in reaction to an event, to the tables and to its memory. -/
theorem announce_spares (hP : P.Spares J) (hJ : J s.memory) (x : Event) :
    J (s.announce x).1.memory ∧ (x ≠ .start → (s.announce x).1.core.ignored = s.core.ignored) ∧
      s.core.elements.DevelopsBy
        (fun e r => r.Grounded e ∧ ∀ m ∈ (s.announce x).1.core.ignored, ¬ r.Builds m)
        (s.announce x).1.core.elements := by
  obtain ⟨hJ', hspares⟩ := hP.react x s.memory s.stage hJ
  exact ⟨hJ', hspares.ignored_eq, hspares.elements⟩

/-- A plugin has injected statements run, and nothing else. -/
theorem mem_announce {x : Event} (h : t ∈ (s.announce x).2) : ∃ m k, t = .exec m k true := by
  obtain ⟨y, -, rfl⟩ := List.mem_map.1 h
  exact ⟨y.1, y.2, rfl⟩

/-- A task leaves the ignored methods alone, whether it fails or not. -/
theorem Steady.spared (hP : P.Spares J) (h : Steady J p e ignored s (t :: rest)) :
    Spared p e ignored (s.perform t).1 := by
  have ht := h.orderly.sane t List.mem_cons_self
  rcases s.perform_cases t with ⟨x, rfl, heq⟩ | ⟨-, heq⟩ <;> rw [heq]
  · obtain ⟨-, hignored, hdevelops⟩ := announce_spares hP h.memory x
    replace hignored := (hignored (h.silent x List.mem_cons_self).1).trans h.ignored_eq
    refine ⟨h.develops.trans hdevelops.develops, hignored, fun m hm => ?_⟩
    obtain ⟨hface, hbody⟩ := hdevelops.face_body_eq fun _ _ hr => hr.2 m (hignored.symm ▸ hm)
    exact ⟨hface.trans (h.kept m hm).1, hbody.trans (h.kept m hm).2⟩
  · refine ⟨h.develops.trans (Core.perform_sane h.orderly.wellFormed ht).grows.elements,
      (s.core.perform_ignored t).trans h.ignored_eq, fun m hm => ?_⟩
    show (Code.face ((s.core.perform t).1.elements.code m)) = _ ∧ _ = _
    rw [Core.code_perform_of_ignored (h.ignored_eq.symm ▸ hm) t]
    exact h.kept m hm

theorem Steady.perform (hP : P.Spares J) (h : Steady J p e ignored s (t :: rest))
    (hp : s.perform t = (s', .ok ts)) : Steady J p e ignored s' (ts ++ rest) := by
  have hspared := h.spared hP
  rw [hp] at hspared
  have horderly := h.orderly.perform hp
  have hsound := h.orderly.wellFormed.sound
  have hgrows := (perform_leads h.orderly.wellFormed (h.orderly.sane t List.mem_cons_self) hp).grows
  have hminds : ∀ {k}, s.core.elements.Minds k → s'.core.elements.Minds k := fun hk =>
    hk.mono hsound hgrows.elements.grows hgrows.elements.retains
  -- what is left of the agenda is as before, so the new tasks are what matters
  have hsteady : J s'.memory → s'.core.elements.Noted → .begin ∉ ts →
      (∀ m k, .exec m k false ∈ ts → s'.core.elements.Minds k) →
      (∀ x, .announce x ∈ ts → x ≠ .start ∧ ∀ m ∈ ignored, x.isAbout m = false) →
      Steady J p e ignored s' (ts ++ rest) := by
    intro hmemory hnoted hbegun hminded hsilent
    refine ⟨hspared, horderly, fun hmem => ?_, hmemory, hnoted, fun m k hmem => ?_,
      fun x hmem => ?_⟩
    · exact (List.mem_append.1 hmem).elim hbegun fun hmem =>
        h.begun (List.mem_cons_of_mem t hmem)
    · exact (List.mem_append.1 hmem).elim (hminded m k) fun hmem =>
        hminds (h.minded m k (List.mem_cons_of_mem t hmem))
    · exact (List.mem_append.1 hmem).elim (hsilent x) fun hmem =>
        h.silent x (List.mem_cons_of_mem t hmem)
  rcases s.perform_cases t with ⟨x, rfl, heq⟩ | ⟨-, heq⟩
  · cases heq.symm.trans hp
    obtain ⟨hJ, -, hdevelops⟩ := announce_spares hP h.memory x
    refine hsteady hJ (hdevelops.noted (fun _ _ hr => hr.1) hsound h.noted) ?_ ?_ ?_
    · intro hmem
      obtain ⟨m, k, ⟨⟩⟩ := mem_announce hmem
    · intro m k hmem
      obtain ⟨m', k', ⟨⟩⟩ := mem_announce hmem
    · intro y hmem
      obtain ⟨m', k', ⟨⟩⟩ := mem_announce hmem
  · obtain ⟨hcore, hok⟩ := Prod.mk.inj (heq.symm.trans hp)
    have hcalls := s.core.perform_callsFor t ts hok
    have hnoted : s'.core.elements.Noted := by
      rw [← hcore]
      exact Core.noted_perform hsound h.noted t
    have hbegin : t ≠ .begin := by
      rintro rfl
      exact h.begun List.mem_cons_self
    refine hsteady ?_ hnoted (fun hmem => (hcalls _ hmem).ne_begin) (fun m k hmem => ?_)
      fun x hmem => ?_
    · rw [← hcore]
      exact h.memory
    · have hbody := (hcalls _ hmem).mem_body
      refine hnoted m.method k ?_
      rw [← hcore]
      exact hbody
    · rw [← h.ignored_eq]
      exact (hcalls _ hmem).silent hbegin

/-- After its start a run leaves the ignored methods alone, and stays steady in each moment. -/
theorem Steady.settle (hP : P.Spares J) (h : Steady J p e ignored s agenda) (fuel : Nat) :
    Spared p e ignored (s.settle fuel agenda).1 ∧
      ∀ x ∈ s.moments fuel agenda, ∃ rest, Steady J p e ignored x.1 (x.2 :: rest) := by
  induction fuel generalizing s agenda with
  | zero => cases agenda <;> exact ⟨h.toSpared, List.forall_mem_nil _⟩
  | succ fuel ih =>
    cases agenda with
    | nil => exact ⟨h.toSpared, List.forall_mem_nil _⟩
    | cons t rest =>
      have hspared := h.spared hP
      unfold Solver.settle moments
      cases hp : s.perform t with
      | mk s' r =>
        rw [hp] at hspared
        cases r with
        | error err =>
          exact ⟨hspared, List.forall_mem_cons.2 ⟨⟨rest, h⟩, List.forall_mem_nil _⟩⟩
        | ok ts =>
          obtain ⟨hend, hmoments⟩ := ih (h.perform hP hp)
          exact ⟨hend, List.forall_mem_cons.2 ⟨⟨rest, h⟩, hmoments⟩⟩

/-- When a run ends well, all calls that were run have their edges. -/
theorem Steady.linked (hP : P.Spares J) (h : Steady J p e ignored s agenda)
    (hs : s.settle fuel agenda = (s', .done ())) : s'.Linked (s.moments fuel agenda) := by
  intro s₁ m k injected id lhs hmem hk
  induction fuel generalizing s agenda with
  | zero => cases hmem
  | succ fuel ih =>
    cases agenda with
    | nil => cases hmem
    | cons t rest =>
      obtain ⟨n, s₂, ts, hn, hp, hrest⟩ := settle_cons hs
      cases hn
      have h₂ := h.perform hP hp
      obtain ⟨hend, hkeep⟩ := h.orderly.settle hs
      simp only [moments, hp, List.mem_cons] at hmem
      rcases hmem with heq | hmem
      · cases heq
        have hwf := h.orderly.wellFormed
        have hsane := h.orderly.sane _ List.mem_cons_self
        cases injected with
        | true =>
          have hobeys := (hkeep m k _ ⟨hk, .inr List.mem_cons_self⟩).obeys hend.wellFormed
            hend.tended hend.drains.idle
          exact Core.ObeysCall.connects hobeys hend.wellFormed
        | false =>
          have hgrows := (perform_leads hwf hsane hp).grows
          obtain ⟨hcore, hok⟩ := Prod.mk.inj hp
          have hexec : s₁.core.exec m k false = (s₂.core, .ok ts) :=
            Prod.ext (congrArg Solver.core hcore) hok
          have hrunning : s₂.core.Running (ts ++ rest) m.ctx k id :=
            Core.exec_running hwf hk (h.minded m k List.mem_cons_self) h₂.orderly.wellFormed hgrows
              hexec
          exact (h₂.orderly.running hrunning (hgrows.elements.grows.has hk) hrest).connects
            hend.wellFormed hend.drains.idle
      · exact ih h₂ hrest hmem

/-! ### Whole runs -/

/-- The solver when the run starts and plugins are about to be told. -/
def launched (s : Solver P) : Solver P := { s with core := { s.core with started := true } }

theorem perform_begin (hs : s.core.started = false) :
    s.perform .begin = (s.launched, .ok (.announce .start :: s.core.entries.flatMap fun m =>
      [.reach ⟨[], m⟩, .enter ⟨[], m⟩])) := by
  show (Solver.mk s.core.begin.1 s.memory, s.core.begin.2) = _
  simp only [Core.begin, hs, Bool.false_eq_true, if_false]
  rfl

/-- The tasks that are left when plugins were told that the run starts, besides what they inject. -/
def remaining (entries : List MethodId) : List Task :=
  (entries.flatMap fun m => [.reach ⟨[], m⟩, .enter ⟨[], m⟩]) ++
    [.drain, .announce .finish, .drain, .statistics]

section

variable (P) (e) (journal : List String) (entries : List MethodId) (policy : ContextPolicy)
  (order : WorklistOrder)

/-- Once plugins were told that the run starts, all is steady. -/
theorem steady_start {s : Solver P} (hs : s = (create P e journal entries policy order).launched)
    (hP : P.Spares J)
    (he : ({ program := p } : Elements).DevelopsBy (fun e r => r.Grounded e) e) :
    Steady J p e (s.announce .start).1.core.ignored (s.announce .start).1
      ((s.announce .start).2 ++ remaining entries) := by
  have hsound := he.develops.sound (Elements.sound_empty p)
  have hcreate := orderly_create P hsound journal entries policy order
  have hlaunched : s.Orderly (.announce .start :: remaining entries) := by
    subst hs
    exact hcreate.perform (perform_begin rfl)
  have hmemory : J s.memory := by
    subst hs
    exact hP.initial
  have helements : s.core.elements = e := by
    subst hs
    rfl
  obtain ⟨hJ, -, hdevelops⟩ := announce_spares hP hmemory .start
  rw [helements] at hdevelops
  have hnoted : e.Noted := by
    refine he.noted (fun _ _ => id) (Elements.sound_empty p) ?_
    rintro _ _ ⟨⟩
  -- of the tasks at hand only the end of the run is announced, and no body is run yet
  have htasks : ∀ t ∈ (s.announce .start).2 ++ remaining entries,
      t ≠ .begin ∧ (∀ m k, t ≠ .exec m k false) ∧ ∀ x, t = .announce x → x = .finish := by
    intro t ht
    rcases List.mem_append.1 ht with ht | ht
    · obtain ⟨m, k, rfl⟩ := mem_announce ht
      refine ⟨nofun, ?_, nofun⟩
      rintro m' k' ⟨⟩
    · simp only [remaining, List.mem_append, List.mem_flatMap, List.mem_cons, List.not_mem_nil,
        or_false] at ht
      rcases ht with ⟨m, -, rfl | rfl⟩ | rfl | rfl | rfl | rfl
      · exact ⟨nofun, nofun, nofun⟩
      · exact ⟨nofun, nofun, nofun⟩
      · exact ⟨nofun, nofun, nofun⟩
      · refine ⟨nofun, nofun, ?_⟩
        rintro x ⟨⟩
        rfl
      · exact ⟨nofun, nofun, nofun⟩
      · exact ⟨nofun, nofun, nofun⟩
  refine ⟨⟨he.develops.trans hdevelops.develops, rfl, fun m hm => ?_⟩, hlaunched.perform rfl,
    fun hmem => (htasks _ hmem).1 rfl, hJ, hdevelops.noted (fun _ _ hr => hr.1) hsound hnoted,
    fun m k hmem => absurd rfl ((htasks _ hmem).2.1 m k), fun x hmem => ?_⟩
  · exact hdevelops.face_body_eq fun _ _ hr => hr.2 m hm
  · rw [(htasks _ hmem).2.2 x rfl]
    exact ⟨nofun, fun _ _ => rfl⟩

end

theorem Opaque.of_forall_not_mem (h : ∀ m, m ∉ s.core.ignored) (past : List (Solver P × Task)) :
    Opaque e s past :=
  ⟨fun m hm => absurd hm (h m), fun _ _ _ m hm => absurd hm (h m),
    fun _ _ _ _ callee _ _ hm => absurd hm (h callee), fun _ _ _ hm => absurd hm (h _)⟩

theorem Opaque.cons {past : List (Solver P × Task)} (h : Opaque e s past)
    (ht : t = .begin ∨ t = .announce .start) (s₁ : Solver P) : Opaque e s ((s₁, t) :: past) := by
  refine ⟨h.blank, fun s₂ x hmem m hm => ?_, fun s₂ caller site o callee hmem => ?_,
    fun s₂ x hmem => ?_⟩ <;> rcases List.mem_cons.1 hmem with heq | hmem
  · rcases ht with rfl | rfl <;> cases heq
    rfl
  · exact h.silent s₂ x hmem m hm
  · rcases ht with rfl | rfl <;> cases heq
  · exact h.unsent s₂ caller site o callee hmem
  · rcases ht with rfl | rfl <;> cases heq
  · exact h.unbound s₂ x hmem

theorem Steady.toOpaque (hP : P.Spares J) (h : Steady J p e ignored s agenda) (fuel : Nat) :
    Opaque e (s.settle fuel agenda).1 (s.moments fuel agenda) := by
  obtain ⟨hend, hmoments⟩ := h.settle hP fuel
  -- in each moment the same methods are ignored
  have hsame : ∀ {x}, x ∈ s.moments fuel agenda → ∀ {m}, m ∈ (s.settle fuel agenda).1.core.ignored →
      m ∈ x.1.core.ignored := by
    intro x hx m hm
    obtain ⟨rest, hx⟩ := hmoments x hx
    rw [hx.ignored_eq, ← hend.ignored_eq]
    exact hm
  refine ⟨fun m hm => hend.blank (hend.ignored_eq ▸ hm), fun s₁ x hmem m hm => ?_,
    fun s₁ caller site o callee hmem hfound hm => ?_, fun s₁ x hmem hm => ?_⟩
  · obtain ⟨rest, hx⟩ := hmoments _ hmem
    exact (hx.silent x List.mem_cons_self).2 m (hend.ignored_eq ▸ hm)
  · exact Core.dispatch_ignored hfound (hsame hmem hm)
  · show (Solver.mk (s₁.core.bind x).1 s₁.memory, (s₁.core.bind x).2) = _
    rw [Core.bind_ignored (hsame hmem hm)]

end Solver

/-- A model of the method `leave` of `Problem.visitor`: a call of it makes an object. -/
def Model.leave : Model where
  name := "leave"
  handlers := (∅ : Table MethodId Handler).insert ⟨2⟩
    (Extension.templateHandler [.temp "o" "tmp" (.cls ⟨0⟩), .alloc (some (.bound "o")) (.cls ⟨0⟩)])

theorem Model.tame_leave : leave.Tame := by
  intro method h hh site
  rw [leave, Table.find?_insert] at hh
  split at hh <;> cases hh
  exact Template.tame_expand _ _ _ _

def Solver.discreet : Solver (Model.ensemble true [Model.leave]) :=
  .create _ { program := Problem.visitor.program } [] [⟨0⟩] (.object 1) .fifo

end PointsTo
