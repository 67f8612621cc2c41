import PointsTo.Plugin.Recorder
import PointsTo.Proofs.Elements.Locality

/-!
# How plugins behave

Two ways to behave are singled out. A local plugin (`Plugin.Local`) keeps the tables local, has
methods ignored at the start only, and queues statements of a method when it is told that the method
is reachable in a context, for this context. A plugin that observes (`Plugin.Observes`) does nothing
but look and take notes; it is local, too.

* Several plugins behave in these ways if each of them does (`Plugin.Local.sequence`,
  `Plugin.Observes.sequence`);
* `Plugin.relay` hands an event to observers one after the other, and `Plugin.hear_sequence`
  says that this is what running them comes to.
-/

namespace PointsTo

/-- The tables bear out what an event tells about the body of a method. -/
def Event.Fits (e : Elements) : Event → Prop
  | .newStmt s m => e.isBuilt m = true ∧ s ∈ (e.code m).body
  | _ => True

theorem Event.Fits.mono {e e' : Elements} {x : Event} (h : e.Evolves e') (he : e.Local)
    (hx : x.Fits e) : x.Fits e' := by
  cases x with
  | newStmt s m => exact ⟨h.isBuilt hx.1, (h.body_eq he hx.1).symm ▸ hx.2⟩
  | _ => trivial

/-! ### Local plugins -/

/-- What a local plugin has done on the way from `s` to `s'`, in reaction to the event `e`. -/
structure Stage.Heeds (e : Event) (s s' : Stage) : Prop where
  elements : s.analysis.elements.Evolves s'.analysis.elements
  ignored_eq : e ≠ .start → s'.ignored = s.ignored
  pending : ∃ more, s'.pending = s.pending ++ more ∧
    ∀ x ∈ more, e = .newCtxMethod x.1 ∧ x.2.method = x.1.method

namespace Stage.Heeds

variable {e : Event} {s s₁ s₂ : Stage}

/-- Nothing is queued. -/
theorem quiet (helements : s.analysis.elements.Evolves s₁.analysis.elements)
    (hignored : e ≠ .start → s₁.ignored = s.ignored) (hpending : s₁.pending = s.pending) :
    s.Heeds e s₁ :=
  ⟨helements, hignored, [], by rw [hpending, List.append_nil], List.forall_mem_nil _⟩

theorem refl (e : Event) (s : Stage) : s.Heeds e s := .quiet .refl (fun _ => rfl) rfl

theorem trans (h₁ : s.Heeds e s₁) (h₂ : s₁.Heeds e s₂) : s.Heeds e s₂ := by
  obtain ⟨more₁, heq₁, hmore₁⟩ := h₁.pending
  obtain ⟨more₂, heq₂, hmore₂⟩ := h₂.pending
  refine ⟨h₁.elements.trans h₂.elements, fun he => (h₂.ignored_eq he).trans (h₁.ignored_eq he),
    more₁ ++ more₂, by rw [heq₂, heq₁, List.append_assoc], fun x hx => ?_⟩
  exact (List.mem_append.1 hx).elim (hmore₁ x) (hmore₂ x)

end Stage.Heeds

namespace Plugin

variable {p q : Plugin}

/-- On local tables the plugin keeps to what it is told about, as long as its memory has the
property `I`. -/
structure Local (p : Plugin) (I : p.Memory → Prop) : Prop where
  initial : I p.memory
  react : ∀ e a (s : Stage), I a → s.analysis.elements.Local → s.analysis.elements.Sound →
    e.Fits s.analysis.elements →
    I ((p.react e a).run s).1 ∧ s.Heeds e ((p.react e a).run s).2

theorem run_pair (e : Event) (a : (p.pair q).Memory) (s : Stage) :
    ((p.pair q).react e a).run s =
      ((((p.react e a.1).run s).1, ((q.react e a.2).run ((p.react e a.1).run s).2).1),
        ((q.react e a.2).run ((p.react e a.1).run s).2).2) :=
  (Hook.run_bind _ _ s).trans (Hook.run_bind _ _ _)

theorem local_idle : idle.Local fun _ => True :=
  ⟨trivial, fun e _ s _ _ _ _ => ⟨trivial, .refl e s⟩⟩

theorem Local.pair {I : p.Memory → Prop} {J : q.Memory → Prop} (hp : p.Local I) (hq : q.Local J) :
    (p.pair q).Local fun a => I a.1 ∧ J a.2 where
  initial := ⟨hp.initial, hq.initial⟩
  react e a s ha he hsound hfits := by
    obtain ⟨hI, h₁⟩ := hp.react e a.1 s ha.1 he hsound hfits
    obtain ⟨hJ, h₂⟩ := hq.react e a.2 _ ha.2 (h₁.elements.local he)
      (h₁.elements.develops.sound hsound) (hfits.mono h₁.elements he)
    rw [run_pair]
    exact ⟨⟨hI, hJ⟩, h₁.trans h₂⟩

theorem Local.sequence {ps : List Plugin} (h : ∀ p ∈ ps, ∃ I, p.Local I) :
    ∃ I, (sequence ps).Local I := by
  induction ps with
  | nil => exact ⟨_, local_idle⟩
  | cons p ps ih =>
    obtain ⟨I, hI⟩ := h p List.mem_cons_self
    obtain ⟨J, hJ⟩ := ih fun q hq => h q (List.mem_cons_of_mem p hq)
    exact ⟨_, hI.pair hJ⟩

end Plugin

/-! ### Observers -/

/-- The hook only looks and takes notes. -/
def Hook.Observes {α : Type} : Hook α → Prop
  | .done _ => True
  | .look k => ∀ v, (k v).Observes
  | .note _ next => next.Observes
  | .ask _ _ | .ignore _ _ | .inject _ _ _ => False

/-- What a hook yields when there is `v` to see, and what it writes. -/
def Hook.hear {α : Type} (x : Hook α) (v : View) : α × List String :=
  let r := x.run { analysis := v.analysis, ignored := v.ignored }
  (r.1, r.2.journal)

theorem Hook.Observes.bind {α β : Type} {x : Hook α} {f : α → Hook β} (hx : x.Observes)
    (hf : ∀ a, (f a).Observes) : (x.bind f).Observes := by
  induction x with
  | done a => exact hf a
  | look k ih => exact fun v => ih v (hx v)
  | note line next ih => exact ih hx
  | ask | ignore | inject => exact hx.elim

/-- An observing hook depends on what there is to see, and changes the journal only. -/
theorem Hook.Observes.run_eq {α : Type} {x : Hook α} (hx : x.Observes) (s : Stage) :
    x.run s = ((x.hear ⟨s.analysis, s.ignored⟩).1,
      { s with journal := s.journal ++ (x.hear ⟨s.analysis, s.ignored⟩).2 }) := by
  induction x generalizing s with
  | done a => simp [hear, run]
  | look k ih => exact ih _ (hx _) s
  | note line next ih =>
    have hline := ih hx { analysis := s.analysis, ignored := s.ignored, journal := [line] }
    have hhear : (Hook.note line next).hear ⟨s.analysis, s.ignored⟩ =
        ((next.hear ⟨s.analysis, s.ignored⟩).1, line :: (next.hear ⟨s.analysis, s.ignored⟩).2) := by
      show ((next.run _).1, (next.run _).2.journal) = _
      rw [List.nil_append, hline]
      rfl
    rw [hhear, run, ih hx]
    simp only [List.append_assoc, List.singleton_append]
  | ask | ignore | inject => exact hx.elim

namespace Plugin

variable {p q : Plugin}

/-- The plugin only looks and takes notes, whatever it is told. -/
def Observes (p : Plugin) : Prop := ∀ e a, (p.react e a).Observes

theorem Observes.local (h : p.Observes) : p.Local fun _ => True := by
  refine ⟨trivial, fun e a s _ _ _ _ => ⟨trivial, ?_⟩⟩
  rw [(h e a).run_eq s]
  exact .quiet .refl (fun _ => rfl) rfl

theorem Observes.pair (hp : p.Observes) (hq : q.Observes) : (p.pair q).Observes :=
  fun e a => (hp e a.1).bind fun _ => (hq e a.2).bind fun _ => trivial

theorem Observes.sequence {ps : List Plugin} (h : ∀ p ∈ ps, p.Observes) :
    (sequence ps).Observes := by
  induction ps with
  | nil => exact fun _ _ => trivial
  | cons p ps ih =>
    exact (h p List.mem_cons_self).pair (ih fun q hq => h q (List.mem_cons_of_mem p hq))

theorem observes_recorder (name : String) (kinds : List EventKind) :
    (recorder name kinds).Observes := by
  intro e a
  simp only [recorder]
  split
  · exact fun v => trivial
  · trivial

/-- The second of two observers sees what the first one saw. -/
theorem hear_pair (hp : p.Observes) (hq : q.Observes) (e : Event) (v : View)
    (a : (p.pair q).Memory) :
    ((p.pair q).react e a).hear v =
      ((((p.react e a.1).hear v).1, ((q.react e a.2).hear v).1),
        ((p.react e a.1).hear v).2 ++ ((q.react e a.2).hear v).2) := by
  show ((((p.pair q).react e a).run _).1, (((p.pair q).react e a).run _).2.journal) = _
  rw [run_pair, (hp e a.1).run_eq, (hq e a.2).run_eq]
  rfl

/-- Hands an event to plugins, one after the other: each of them reacts with its own memory to the
same view. The answer has their memories and the lines that they write, in order. -/
def relay (e : Event) (v : View) :
    (ps : List Plugin) → (sequence ps).Memory → (sequence ps).Memory × List String
  | [], a => (a, [])
  | p :: ps, a =>
    let first := (p.react e a.1).hear v
    let rest := relay e v ps a.2
    ((first.1, rest.1), first.2 ++ rest.2)

/-- Observers that react one after the other are each handed the event. -/
theorem hear_sequence {ps : List Plugin} (h : ∀ p ∈ ps, p.Observes) (e : Event) (v : View)
    (a : (sequence ps).Memory) : ((sequence ps).react e a).hear v = relay e v ps a := by
  induction ps with
  | nil => rfl
  | cons p ps ih =>
    have hps := fun q hq => h q (List.mem_cons_of_mem p hq)
    refine (hear_pair (h p List.mem_cons_self) (Observes.sequence hps) e v a).trans ?_
    rw [ih hps]
    rfl

end Plugin

end PointsTo
