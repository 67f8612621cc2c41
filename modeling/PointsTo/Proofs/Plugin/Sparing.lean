import PointsTo.Proofs.Elements.Notes
import PointsTo.Proofs.Plugin.Modelling

/-!
# Plugins that spare ignored methods

A plugin can have methods ignored, and it can build methods itself. It spares the methods that are
ignored if it decides on them when the run starts, and builds none of them.

* `Plugin.Spares`: the plugin spares the ignored methods;
* `Hook.Tame`: the hook builds no method at all, and has methods ignored only if it may;
* `Plugin.Tame.spares`: a plugin with such hooks spares the ignored methods;
* `Model.tame_ensemble`: models are plugins of this kind, if their handlers build no method.
-/

namespace PointsTo

/-- What a reaction to an event does to the methods that are ignored afterwards. -/
structure Stage.Spares (x : Event) (s s' : Stage) : Prop where
  ignored_eq : x ≠ .start → s'.ignored = s.ignored
  elements : s.analysis.elements.DevelopsBy
    (fun e r => r.Grounded e ∧ ∀ m ∈ s'.ignored, ¬ r.Builds m) s'.analysis.elements

/-- Methods are ignored from the start of a run or not at all, and the plugin builds none of them.
What it adds to other bodies names variables that are there. All this holds as long as its memory
has the property `J`. -/
structure Plugin.Spares (p : Plugin) (J : p.Memory → Prop) : Prop where
  initial : J p.memory
  react : ∀ x a (s : Stage), J a →
    J ((p.react x a).run s).1 ∧ s.Spares x ((p.react x a).run s).2

/-- A request that builds no method says nothing about the variables of bodies. -/
theorem Request.grounded_of_not_builds {r : Request} (h : ∀ m, ¬ r.Builds m) (e : Elements) :
    r.Grounded e := by
  cases r with
  | addStmt m st synthetic =>
    cases synthetic with
    | true => trivial
    | false => exact absurd ⟨rfl, rfl⟩ (h m)
  | addCall m kind target receiver args lhs synthetic =>
    cases synthetic with
    | true => cases receiver <;> trivial
    | false => exact absurd ⟨rfl, rfl⟩ (h m)
  | _ => trivial

/-! ### Scripts and hooks that build nothing -/

/-- The script builds no method. -/
def Script.Tame {α : Type} : Script α → Prop
  | .done _ => True
  | .look k => ∀ e, (k e).Tame
  | .ask r k => (∀ m, ¬ r.Builds m) ∧ ∀ a, (k a).Tame

/-- The hook builds no method, and has methods ignored only if it may. -/
def Hook.Tame {α : Type} (may : Prop) : Hook α → Prop
  | .done _ => True
  | .look k => ∀ v, (k v).Tame may
  | .ask r k => (∀ m, ¬ r.Builds m) ∧ ∀ a, (k a).Tame may
  | .ignore _ next => may ∧ next.Tame may
  | .inject _ _ next | .note _ next => next.Tame may

namespace Script

variable {α β : Type}

theorem Tame.bind {x : Script α} {f : α → Script β} (hx : x.Tame) (hf : ∀ a, (f a).Tame) :
    (x.bind f).Tame := by
  induction x with
  | done a => exact hf a
  | look k ih => exact fun e => ih e (hx e)
  | ask r k ih => exact ⟨hx.1, fun a => ih a (hx.2 a)⟩

theorem tame_mapM {f : α → Script β} (hf : ∀ a, (f a).Tame) (l : List α) : (l.mapM f).Tame := by
  induction l with
  | nil => trivial
  | cons a l ih =>
    rw [List.mapM_cons]
    exact (hf a).bind fun b => ih.bind fun bs => trivial

end Script

theorem tame_addSynthetic (m : MethodId) (stmts : List Stmt) : (addSynthetic m stmts).Tame := by
  have hone : ∀ st, (Script.request (.addStmt m st true)).Tame :=
    fun _ => ⟨fun _ h => Bool.noConfusion h.2, fun _ => trivial⟩
  exact Script.tame_mapM hone stmts

namespace Hook

variable {α β : Type} {may : Prop}

theorem Tame.bind {x : Hook α} {f : α → Hook β} (hx : x.Tame may) (hf : ∀ a, (f a).Tame may) :
    (x.bind f).Tame may := by
  induction x with
  | done a => exact hf a
  | look k ih => exact fun v => ih v (hx v)
  | ask r k ih => exact ⟨hx.1, fun a => ih a (hx.2 a)⟩
  | ignore m next ih => exact ⟨hx.1, ih hx.2⟩
  | inject m stmts next ih => exact ih hx
  | note line next ih => exact ih hx

theorem tame_ofScript {x : Script α} (hx : x.Tame) : (ofScript x).Tame may := by
  induction x with
  | done a => trivial
  | look k ih => exact fun v => ih _ (hx _)
  | ask r k ih => exact ⟨hx.1, fun a => ih a (hx.2 a)⟩

theorem Tame.developsBy {x : Hook α} (hx : x.Tame may) (s : Stage) :
    s.analysis.elements.DevelopsBy (fun _ r => ∀ m, ¬ r.Builds m)
      (x.run s).2.analysis.elements := by
  induction x generalizing s with
  | done a => exact .refl
  | look k ih => exact ih _ (hx _) s
  | ask r k ih =>
    exact (Elements.DevelopsBy.refl.serve hx.1).trans (ih _ (hx.2 _)
      { s with analysis := { s.analysis with elements := (s.analysis.elements.serve r).2 } })
  | ignore m next ih => exact ih hx.2 { s with ignored := s.ignored.insert m }
  | inject m stmts next ih => exact ih hx { s with pending := s.pending ++ stmts.map (m, ·) }
  | note line next ih => exact ih hx { s with journal := s.journal ++ [line] }

theorem Tame.ignored_eq {x : Hook α} (hx : x.Tame may) (hmay : ¬ may) (s : Stage) :
    (x.run s).2.ignored = s.ignored := by
  induction x generalizing s with
  | done a => rfl
  | look k ih => exact ih _ (hx _) s
  | ask r k ih => exact ih _ (hx.2 _) _
  | ignore m next ih => exact absurd hx.1 hmay
  | inject m stmts next ih => exact ih hx _
  | note line next ih => exact ih hx _

theorem Tame.spares {e : Event} {x : Hook α} (hx : x.Tame (e = .start)) (s : Stage) :
    s.Spares e (x.run s).2 where
  ignored_eq hne := hx.ignored_eq hne s
  elements := (hx.developsBy s).mono fun e _ hr =>
    ⟨Request.grounded_of_not_builds hr e, fun m _ => hr m⟩

end Hook

/-! ### Plugins -/

namespace Plugin

variable {p q : Plugin}

/-- The plugin builds no method, and has methods ignored when the run starts only. -/
def Tame (p : Plugin) : Prop := ∀ x a, (p.react x a).Tame (x = .start)

theorem Tame.spares (h : p.Tame) : p.Spares fun _ => True :=
  ⟨trivial, fun x a s _ => ⟨trivial, (h x a).spares s⟩⟩

theorem Tame.pair (hp : p.Tame) (hq : q.Tame) : (p.pair q).Tame :=
  fun x a => (hp x a.1).bind fun _ => (hq x a.2).bind fun _ => trivial

theorem Tame.sequence {ps : List Plugin} (h : ∀ p ∈ ps, p.Tame) : (sequence ps).Tame := by
  induction ps with
  | nil => exact fun _ _ => trivial
  | cons p ps ih =>
    exact (h p List.mem_cons_self).pair (ih fun q hq => h q (List.mem_cons_of_mem p hq))

end Plugin

/-! ### Models -/

theorem Template.tame_expandItem (m : MethodId) (site : Option SiteId) (bindings : Bindings)
    (item : TemplateItem) : (expandItem m site bindings item).Tame := by
  intro e
  cases item with
  | temp | call => exact ⟨fun _ => id, fun _ => trivial⟩
  | alloc | load | store =>
    simp only [Script.bind]
    split
    · exact ⟨fun _ => id, fun _ => trivial⟩
    · trivial
  | assign =>
    simp only [Script.bind]
    split <;> trivial
  | callAgain => trivial

theorem Template.tame_expand (m : MethodId) (site : Option SiteId) (bindings : Bindings)
    (t : Template) : (expand m site bindings t).Tame := by
  induction t generalizing bindings with
  | nil => trivial
  | cons item rest ih =>
    exact (tame_expandItem m site bindings item).bind fun x => (ih x.2).bind fun _ => trivial

namespace Model

/-- The handlers of the model build no method. -/
def Tame (m : Model) : Prop :=
  ∀ method h, m.handlers.find? method = some h → ∀ site, (h site).Tame

variable {m : Model}

theorem Tame.modelStmt (hm : m.Tame) (s : StmtId) (container : MethodId)
    (calls : List ModelledCall) : (m.modelStmt s container calls).Tame := by
  intro e
  simp only [Script.bind]
  split
  · rename_i site lhs hst
    split
    · rename_i h hh
      have hhandler : ∃ method, m.handlers.find? method = some h := by
        unfold handler? at hh
        simp only at hh
        split at hh
        · cases hh
        · exact ⟨_, hh⟩
      obtain ⟨method, hmethod⟩ := hhandler
      exact (hm method h hmethod site).bind fun stmts =>
        (tame_addSynthetic container stmts).bind fun _ => trivial
    · trivial
  · trivial

theorem tame_ignoreAll {α : Type} {may : Prop} (hmay : may) {next : Hook α} (hnext : next.Tame may)
    (ms : List MethodId) : (ignoreAll ms next).Tame may := by
  induction ms with
  | nil => exact hnext
  | cons k ms ih => exact ⟨hmay, ih⟩

theorem Tame.react (hm : m.Tame) (x : Event) (calls : List ModelledCall) :
    (m.react x calls).Tame (x = .start) := by
  cases x with
  | start =>
    have hdone : (Hook.done calls).Tame (Event.start = .start) := trivial
    exact tame_ignoreAll rfl hdone _
  | newStmt s container => exact Hook.tame_ofScript (hm.modelStmt s container calls)
  | newCtxMethod | finish | newMethod | newPointsTo | newCallEdge | unresolvedCall => trivial

theorem Tame.pluginWith (hm : m.Tame) (reports : Bool) : (m.pluginWith reports).Tame := by
  have hnotes : ∀ (lines : List String) (calls : List ModelledCall) (may : Prop),
      (lines.foldr Hook.note (.done calls)).Tame may := by
    intro lines calls may
    induction lines with
    | nil => trivial
    | cons line lines ih => exact ih
  cases reports with
  | false => exact hm.react
  | true =>
    intro x calls
    cases x with
    | finish => exact fun v => hnotes _ calls _
    | _ => exact hm.react _ calls

/-- Models whose handlers build no method are plugins that build none. -/
theorem tame_ensemble {ms : List Model} (h : ∀ m ∈ ms, m.Tame) (reports : Bool) :
    (ensemble reports ms).Tame := by
  refine .sequence fun p hp => ?_
  obtain ⟨m, hm, rfl⟩ := List.mem_map.1 hp
  exact (h m hm).pluginWith reports

end Model

end PointsTo
