import Mathlib.Data.List.Nodup
import Mathlib.Logic.Relation
import PointsTo.Plugin.Model
import PointsTo.Proofs.Elements.Faithful
import PointsTo.Proofs.Program.Resolution
import PointsTo.Proofs.Signature.Grammar

/-!
# Registering handlers

A list of signatures is gone through from the first to the last. A signature of no method is passed
over, and one that is malformed, or names a method that has a handler, ends the registration. It may
have got its handler from an earlier call or from an earlier signature of the same list, which need
not be written in the same way.

* `Program.named?`: the method that a text names;
* `Model.Accepts` and `Model.Refuses`: the lists that are accepted, and the signatures at which
  registration ends;
* `Model.Registration`: the outcome of a registration, and `Model.registration`: there is no other;
* `Model.register_installs`: when registration succeeds, and which handlers there are afterwards.
-/

namespace PointsTo

open Relation (ReflTransGen)

theorem Table.mem_keys_iff {κ ν : Type} [DecidableEq κ] {t : Table κ ν} {k : κ} :
    k ∈ t.keys ↔ ∃ v, t.find? k = some v := by
  rw [← Option.ne_none_iff_exists', ne_eq, find?_eq_none_iff, not_not]

/-- The method of the program that a text names. -/
def Program.named? (p : Program) (s : String) : Option MethodId :=
  match Signature.parse s with
  | .ok sig => p.resolve? sig
  | .error _ => none

namespace Elements

variable {e : Elements} {s : String} {sig : Signature} {x : MethodId}

theorem resolve_of_malformed (h : ∀ sig, Signature.parse s ≠ .ok sig) :
    e.resolve s = (.error (.malformedSignature s), e) := by
  cases hparse : Signature.parse s with
  | ok sig => exact absurd hparse (h sig)
  | error err => simp only [resolve, hparse, Signature.parse_eq_error hparse]

theorem resolve_of_named?_eq_none (hs : Signature.parse s = .ok sig)
    (h : e.program.named? s = none) : e.resolve s = (.ok none, e) := by
  simp only [Program.named?, hs] at h
  simp only [resolve, hs, h]

theorem resolve_of_named?_eq_some (h : e.program.named? s = some x) :
    e.resolve s = (.ok (some x), e.addMethod x) := by
  cases hs : Signature.parse s with
  | ok sig =>
    simp only [Program.named?, hs] at h
    simp only [resolve, hs, h]
  | error err =>
    simp only [Program.named?, hs] at h
    cases h

end Elements

namespace Model

variable {m m₁ m' : Model} {h k : Handler} {p : Program} {e : Elements} {s : String} {x : MethodId}
  {rest : List String} {xs ys : List MethodId} {err : Error} {result : Except Error Unit}

/-! ### One signature -/

/-- The model with a handler for a further method. -/
def install (m : Model) (x : MethodId) (h : Handler) : Model :=
  { m with handlers := m.handlers.insert x h }

theorem register_of_malformed (hs : ∀ sig, Signature.parse s ≠ .ok sig) :
    m.register h (s :: rest) e = (.error (.malformedSignature s), m, e) := by
  rw [register, Elements.resolve_of_malformed hs]

theorem register_of_absent {sig : Signature} (hs : Signature.parse s = .ok sig)
    (hnone : e.program.named? s = none) :
    m.register h (s :: rest) e = m.register h rest
      (e.tell .debug (m.name ++ ": " ++ s ++ " is not in the program, skip it")) := by
  rw [register, Elements.resolve_of_named?_eq_none hs hnone]

theorem register_of_handled (hx : e.program.named? s = some x) (hmem : x ∈ m.handlers.keys) :
    m.register h (s :: rest) e = (.error (.duplicateHandler m.name s), m, e.addMethod x) := by
  rw [register, Elements.resolve_of_named?_eq_some hx]
  exact if_pos (Table.contains_iff.2 hmem)

theorem register_of_free (hx : e.program.named? s = some x) (hmem : x ∉ m.handlers.keys) :
    m.register h (s :: rest) e = (m.install x h).register h rest (e.addMethod x) := by
  rw [register, Elements.resolve_of_named?_eq_some hx]
  exact if_neg fun hcontains => hmem (Table.contains_iff.1 hcontains)

/-! ### Lists of signatures -/

/-- All signatures can be read, and the methods that they name are distinct and have no handler. -/
structure Accepts (m : Model) (p : Program) (signatures : List String) : Prop where
  readable : ∀ s ∈ signatures, ∃ sig, Signature.parse s = .ok sig
  distinct : (signatures.filterMap p.named?).Nodup
  free : ∀ x ∈ signatures.filterMap p.named?, x ∉ m.handlers.keys

/-- Why registration ends at the signature `s`, after the signatures `before`, and with which
error. -/
inductive Refuses (m : Model) (p : Program) (before : List String) (s : String) : Error → Prop
  | malformed (hs : ∀ sig, Signature.parse s ≠ .ok sig) :
      Refuses m p before s (.malformedSignature s)
  | handled {x : MethodId} (hx : p.named? s = some x)
      (hmem : x ∈ m.handlers.keys ∨ x ∈ before.filterMap p.named?) :
      Refuses m p before s (.duplicateHandler m.name s)

/-- The handlers of `m'` are those of `m`, and `h` for the methods `xs`. -/
structure Gains (m : Model) (h : Handler) (xs : List MethodId) (m' : Model) : Prop where
  name_eq : m'.name = m.name
  handlers_iff : ∀ x k,
    m'.handlers.find? x = some k ↔ m.handlers.find? x = some k ∨ x ∈ xs ∧ k = h

/-- The outcome of a registration: all signatures are accepted, or all up to the first one that is
refused. -/
inductive Registration (m : Model) (h : Handler) (p : Program) (signatures : List String) :
    Except Error Unit → Model → Prop
  | completed {m' : Model} (haccepts : m.Accepts p signatures)
      (hgains : m.Gains h (signatures.filterMap p.named?) m') :
      Registration m h p signatures (.ok ()) m'
  | stopped {m' : Model} {before after : List String} {s : String} {err : Error}
      (heq : signatures = before ++ s :: after) (haccepts : m.Accepts p before)
      (hrefuses : m.Refuses p before s err) (hgains : m.Gains h (before.filterMap p.named?) m') :
      Registration m h p signatures (.error err) m'

theorem accepts_nil (m : Model) (p : Program) : m.Accepts p [] :=
  ⟨List.forall_mem_nil _, List.nodup_nil, List.forall_mem_nil _⟩

theorem gains_nil (m : Model) (h : Handler) : m.Gains h [] m :=
  ⟨rfl, fun x k => by simp⟩

theorem Gains.trans (h₁ : m.Gains h xs m₁) (h₂ : m₁.Gains h ys m') : m.Gains h (xs ++ ys) m' where
  name_eq := h₂.name_eq.trans h₁.name_eq
  handlers_iff x k := by
    rw [h₂.handlers_iff, h₁.handlers_iff, List.mem_append]
    tauto

theorem Gains.mem_keys (hm : m.Gains h xs m') :
    x ∈ m'.handlers.keys ↔ x ∈ m.handlers.keys ∨ x ∈ xs := by
  simp only [Table.mem_keys_iff, hm.handlers_iff, exists_or, exists_and_left, exists_eq, and_true]

/-! ### One list after the other -/

section Append

variable {l₁ l₂ : List String} (hgains : m.Gains h (l₁.filterMap p.named?) m₁)

include hgains

theorem Accepts.append (h₁ : m.Accepts p l₁) (h₂ : m₁.Accepts p l₂) : m.Accepts p (l₁ ++ l₂) where
  readable s hs := (List.mem_append.1 hs).elim (h₁.readable s) (h₂.readable s)
  distinct := by
    rw [List.filterMap_append, List.nodup_append]
    refine ⟨h₁.distinct, h₂.distinct, ?_⟩
    rintro x hx _ hx' rfl
    exact h₂.free x hx' (hgains.mem_keys.2 (.inr hx))
  free x hx := by
    rw [List.filterMap_append] at hx
    rcases List.mem_append.1 hx with hx | hx
    · exact h₁.free x hx
    · exact fun hmem => h₂.free x hx (hgains.mem_keys.2 (.inl hmem))

theorem Refuses.append (hrefuses : m₁.Refuses p l₂ s err) : m.Refuses p (l₁ ++ l₂) s err := by
  cases hrefuses with
  | malformed hs => exact .malformed hs
  | handled hx hmem =>
    rw [hgains.name_eq]
    refine .handled hx ?_
    rw [hgains.mem_keys] at hmem
    rw [List.filterMap_append, List.mem_append]
    tauto

/-- Signatures that are accepted may come before. -/
theorem Registration.append (haccepts : m.Accepts p l₁) (hr : m₁.Registration h p l₂ result m') :
    m.Registration h p (l₁ ++ l₂) result m' := by
  cases hr with
  | completed haccepts₂ hgains₂ =>
    refine .completed (haccepts.append hgains haccepts₂) ?_
    rw [List.filterMap_append]
    exact hgains.trans hgains₂
  | @stopped _ before after s err heq haccepts₂ hrefuses hgains₂ =>
    have heq' : l₁ ++ l₂ = (l₁ ++ before) ++ s :: after := by rw [heq, List.append_assoc]
    refine .stopped heq' (haccepts.append hgains haccepts₂) (hrefuses.append hgains) ?_
    rw [List.filterMap_append]
    exact hgains.trans hgains₂

end Append

/-! ### From the first signature to the last -/

theorem accepts_singleton (hs : ∃ sig, Signature.parse s = .ok sig)
    (hfree : ∀ x, p.named? s = some x → x ∉ m.handlers.keys) : m.Accepts p [s] where
  readable s' hs' := by
    rwa [List.mem_singleton.1 hs']
  distinct := by
    cases hx : p.named? s with
    | none => simp [hx]
    | some x => simp [hx]
  free x hx := by
    obtain ⟨s', hs', hx⟩ := List.mem_filterMap.1 hx
    rw [List.mem_singleton.1 hs'] at hx
    exact hfree x hx

theorem gains_absent (hnone : p.named? s = none) : m.Gains h ([s].filterMap p.named?) m := by
  rw [List.filterMap_cons_none hnone]
  exact m.gains_nil h

theorem gains_install (hx : p.named? s = some x) (hfree : x ∉ m.handlers.keys) :
    m.Gains h ([s].filterMap p.named?) (m.install x h) where
  name_eq := rfl
  handlers_iff y k := by
    rw [install, Table.find?_insert, List.filterMap_cons_some hx]
    by_cases hy : y = x
    · subst hy
      simp [Table.find?_eq_none_iff.2 hfree, eq_comm]
    · simp [hy]

/-- What comes of a registration. -/
theorem registration (m : Model) (h : Handler) (signatures : List String) (e : Elements) :
    m.Registration h e.program signatures (m.register h signatures e).1
      (m.register h signatures e).2.1 := by
  induction signatures generalizing m e with
  | nil => exact .completed (m.accepts_nil _) (m.gains_nil h)
  | cons s rest ih =>
    have hrefused : ∀ err, m.Refuses e.program [] s err →
        m.Registration h e.program (s :: rest) (.error err) m := fun err hrefuses =>
      .stopped (List.nil_append _).symm (m.accepts_nil _) hrefuses (m.gains_nil h)
    by_cases hs : ∃ sig, Signature.parse s = .ok sig
    · cases hx : e.program.named? s with
      | none =>
        have haccepts : m.Accepts e.program [s] := accepts_singleton hs (by simp [hx])
        have hrest := ih m
          (e.tell .debug (m.name ++ ": " ++ s ++ " is not in the program, skip it"))
        obtain ⟨sig, hs⟩ := hs
        rw [register_of_absent hs hx]
        exact hrest.append (gains_absent hx) haccepts
      | some x =>
        by_cases hmem : x ∈ m.handlers.keys
        · rw [register_of_handled hx hmem]
          exact hrefused _ (.handled hx (.inl hmem))
        · have haccepts : m.Accepts e.program [s] := accepts_singleton hs (by simpa [hx] using hmem)
          have hrest := ih (m.install x h) (e.addMethod x)
          rw [(e.addMethod_frame x).1] at hrest
          rw [register_of_free hx hmem]
          exact hrest.append (gains_install hx hmem) haccepts
    · have hmalformed : ∀ sig, Signature.parse s ≠ .ok sig := not_exists.1 hs
      rw [register_of_malformed hmalformed]
      exact hrefused _ (.malformed hmalformed)

theorem Accepts.not_refuses {before after : List String}
    (haccepts : m.Accepts p (before ++ s :: after)) : ¬ m.Refuses p before s err := by
  intro hrefuses
  cases hrefuses with
  | malformed hs =>
    obtain ⟨sig, hsig⟩ := haccepts.readable s (by simp)
    exact hs sig hsig
  | @handled x hx hmem =>
    have hdistinct := haccepts.distinct
    have hfree := haccepts.free
    rw [List.filterMap_append, List.filterMap_cons_some hx] at hdistinct hfree
    rcases hmem with hmem | hmem
    · exact hfree x (by simp) hmem
    · exact (List.nodup_append.1 hdistinct).2.2 x hmem x (by simp) rfl

theorem register_eq_ok_iff {signatures : List String} :
    (m.register h signatures e).1 = .ok () ↔ m.Accepts e.program signatures := by
  have hr := m.registration h signatures e
  constructor
  · intro hok
    rw [hok] at hr
    cases hr with
    | completed haccepts _ => exact haccepts
  · intro haccepts
    cases hresult : (m.register h signatures e).1 with
    | ok => rfl
    | error err =>
      rw [hresult] at hr
      cases hr with
      | stopped heq _ hrefuses _ =>
        subst heq
        exact absurd hrefuses haccepts.not_refuses

/-! ### One call after the other -/

/-- A call of `register` leads from `m` to `m'`, whether it fails or not. -/
def Registers (m m' : Model) : Prop :=
  ∃ h signatures e, (m.register h signatures e).2.1 = m'

theorem Registration.find?_eq {signatures : List String}
    (hr : m.Registration h p signatures result m') (hx : m.handlers.find? x = some k) :
    m'.handlers.find? x = some k := by
  cases hr with
  | completed _ hgains => exact (hgains.handlers_iff x k).2 (.inl hx)
  | stopped _ _ _ hgains => exact (hgains.handlers_iff x k).2 (.inl hx)

/-- A handler stays. -/
theorem find?_eq_of_registers (hm : ReflTransGen Registers m m')
    (hx : m.handlers.find? x = some k) : m'.handlers.find? x = some k := by
  induction hm with
  | refl => exact hx
  | tail _ hstep ih =>
    obtain ⟨h, signatures, e, rfl⟩ := hstep
    exact (registration _ h signatures e).find?_eq ih

/-- Registration succeeds if all signatures can be read and the methods that they name are distinct
and have no handler. Otherwise it ends at the first signature for which this fails. The methods that
were named up to then have the handler afterwards, and the others have theirs. No call changes a
handler. -/
theorem register_installs (m : Model) (h : Handler) (signatures : List String) (e : Elements) :
    ((m.register h signatures e).1 = .ok () ↔ m.Accepts e.program signatures) ∧
    ((m.register h signatures e).1 = .ok () →
      m.Gains h (signatures.filterMap e.program.named?) (m.register h signatures e).2.1) ∧
    (∀ err, (m.register h signatures e).1 = .error err →
      ∃ before s after, signatures = before ++ s :: after ∧ m.Accepts e.program before ∧
        m.Refuses e.program before s err ∧
        m.Gains h (before.filterMap e.program.named?) (m.register h signatures e).2.1) ∧
    ∀ m', ReflTransGen Registers m m' → m'.handlers.keys.Nodup ∧
      ∀ x k, m.handlers.find? x = some k → m'.handlers.find? x = some k := by
  have hr := m.registration h signatures e
  refine ⟨register_eq_ok_iff, fun hok => ?_, fun err herr => ?_,
    fun m' hm => ⟨m'.handlers.nodup, fun x k => find?_eq_of_registers hm⟩⟩
  · rw [hok] at hr
    cases hr with
    | completed _ hgains => exact hgains
  · rw [herr] at hr
    cases hr with
    | @stopped _ before after s _ heq haccepts hrefuses hgains =>
      exact ⟨before, s, after, heq, haccepts, hrefuses, hgains⟩

/-- A handler that generates nothing. -/
def silent : Handler := fun _ => .done []

/-- A handler that repeats the call. -/
def echo : Handler := fun site => .done [.call site none]

/-- A model of the first one of two methods, and the tables. A further signature has no method. -/
def stocked : Model × Elements :=
  ((⟨"boxes", ∅⟩ : Model).register silent ["<p.Box: void put( )>", "<q.Bag: void put()>"]
    { program := .overloaded }).2

/-- A second registration, which comes upon the first method again. -/
def restocked : Except Error Unit × Model × Elements :=
  stocked.1.register echo
    ["<p.Box: p.Box put(int,java.lang.Object[])>", " <p.Box: void put()>"] stocked.2

/-- The first method keeps its handler, although its signature is written in another way, and the
second method has got its handler before the registration ends. -/
theorem register_installs_stocked :
    restocked.1 = .error (.duplicateHandler "boxes" " <p.Box: void put()>") ∧
      restocked.2.1.handlers.find? ⟨0⟩ = some silent ∧
      restocked.2.1.handlers.find? ⟨1⟩ = some echo := by
  have hok : ((⟨"boxes", ∅⟩ : Model).register silent
      ["<p.Box: void put( )>", "<q.Bag: void put()>"] { program := .overloaded }).1 = .ok () := by
    decide +kernel
  have herr : restocked.1 = .error (.duplicateHandler "boxes" " <p.Box: void put()>") := by
    decide +kernel
  obtain ⟨-, hfirst, -, -⟩ := register_installs ⟨"boxes", ∅⟩ silent
    ["<p.Box: void put( )>", "<q.Bag: void put()>"] { program := .overloaded }
  obtain ⟨-, -, hsecond, hstays⟩ := register_installs stocked.1 echo
    ["<p.Box: p.Box put(int,java.lang.Object[])>", " <p.Box: void put()>"] stocked.2
  have hput : stocked.1.handlers.find? ⟨0⟩ = some silent :=
    ((hfirst hok).handlers_iff _ _).2 (.inr ⟨by decide +kernel, rfl⟩)
  refine ⟨herr, (hstays _ (.single ⟨echo, _, _, rfl⟩)).2 _ _ hput, ?_⟩
  obtain ⟨before, s, after, heq, -, hrefuses, hgains⟩ := hsecond _ herr
  obtain rfl : s = " <p.Box: void put()>" := by
    cases hrefuses
    rfl
  -- the error names the second signature, so that the first one was accepted
  rcases before with _ | ⟨s₁, _ | ⟨s₂, before⟩⟩
  · exact absurd (List.cons.inj heq).1 (by decide)
  · obtain ⟨rfl, -⟩ := List.cons.inj heq
    exact (hgains.handlers_iff _ _).2 (.inr ⟨by decide +kernel, rfl⟩)
  · simp at heq

end Model

end PointsTo
