import PointsTo.Proofs.Elements.Catalog
import PointsTo.Proofs.Heap
import PointsTo.Proofs.Propagation

/-!
# Looking up results

What the queries of a result answer, in every state of a solver, with any plugins and also after
errors.

* `Core.Kept`: the heap was made by creating objects and pointers and by letting pointers refer to
  objects, and no statement is listed twice; all operations keep it so (`Core.Kept.edit`,
  `Core.Kept.next`);
* `Analysis.Answers`: the objects and allocations of a variable are listed in order of creation and
  are those of its pointers over all contexts, and objects have the types of their allocations;
* `interns_and_answers`: for all heaps and all states.
-/

namespace PointsTo

/-- What the queries of a result answer. -/
structure Analysis.Answers (a : Analysis) : Prop where
  made : ∃ l, a.heap = Heap.grown l
  pointsToVar : ∀ v, Increasing a.heap.objs.index? (a.pointsToVar v)
  mem_pointsToVar : ∀ v o, o ∈ a.pointsToVar v ↔ ∃ c, o ∈ a.pointsTo (.var c v)
  mem_pointsTo : ∀ p o, o ∈ a.pointsTo p ↔ o ∈ a.heap.pointsTo p
  allocSites : ∀ v, Increasing a.elements.stmts.idxOf? (a.allocSites v)
  mem_allocSites : ∀ v s, s ∈ a.allocSites v ↔ ∃ o ∈ a.pointsToVar v, o.site = s
  typed : ∀ o ∈ a.heap.objs.keys, ∃ lhs, a.elements.Has o.site (.alloc lhs (a.heap.typeOf o))

namespace Core

/-- The heap was made by changes of the empty one, and no statement is listed twice. -/
structure Kept (c : Core) : Prop where
  made : ∃ l, c.analysis.heap = Heap.grown l
  catalogued : c.elements.Catalogued

variable {c c₁ : Core} {D : Deed → Prop}

namespace Kept

/-- One more change of the heap. -/
theorem change (h : c.Kept) (x : Heap.Change)
    (hheap : c₁.analysis.heap = c.analysis.heap.changed x) (helements : c₁.elements = c.elements) :
    c₁.Kept := by
  obtain ⟨l, hl⟩ := h.made
  refine ⟨⟨l ++ [x], ?_⟩, helements ▸ h.catalogued⟩
  rw [hheap, hl, Heap.grown_concat]

theorem of_eq (h : c.Kept) (hheap : c₁.analysis.heap = c.analysis.heap)
    (helements : c₁.elements = c.elements) : c₁.Kept :=
  ⟨hheap ▸ h.made, helements ▸ h.catalogued⟩

theorem addPointer (h : c.Kept) (p : Pointer) : (c.addPointer p).Kept :=
  h.change (.pointer p) rfl rfl

theorem tell (h : c.Kept) (level : Level) (text : String) : (c.tell level text).Kept :=
  ⟨h.made, (Elements.Develops.refl.tell level text).catalogued h.catalogued⟩

theorem edit (h : c.Kept) (he : Edit D c c₁) : c₁.Kept := by
  cases he with
  | tables he => exact ⟨h.made, he.catalogued h.catalogued⟩
  | @object o ty => exact h.change (.obj o ty) rfl rfl
  | pointer p => exact h.addPointer p
  | link a b =>
    have hpointers := (h.addPointer a).addPointer b
    refine hpointers.of_eq ?_ ?_
    · rw [analysis_link]
    · rw [Core.elements, analysis_link]
      rfl
  | context | push | method | entry | site | record | watch | note => exact h.of_eq rfl rfl

theorem next (h : c.Kept) : c.next.1.Kept := by
  rcases next_spec c with ⟨-, heq⟩ | ⟨l₁, i, l₂, -, -, hrest⟩
  · rw [heq]
    exact h
  · have hremain : (c.remain (l₁ ++ l₂)).Kept := h.of_eq rfl rfl
    rcases hrest with ⟨p, os, rfl, heq⟩ | ⟨m, e, rfl, heq⟩ <;> rw [heq]
    · have harrive : ∀ sent, ((c.remain (l₁ ++ l₂)).arrive p os sent).Kept := by
        intro sent
        rw [arrive, foldl_push_objects]
        exact hremain.change (.extend p os) rfl rfl
      rcases (c.remain (l₁ ++ l₂)).takeObjects_cases p os with
        ⟨-, heq⟩ | ⟨-, ⟨o, x, -, heq⟩ | ⟨ctx, v, text, -, heq⟩⟩ <;> rw [heq]
      · exact hremain
      · exact harrive _
      · exact (harrive _).tell _ _
    · rcases (c.remain (l₁ ++ l₂)).takeEdge_spec m e with ⟨-, heq⟩ | ⟨-, heq⟩ <;>
        rw [heq] <;> exact hremain

end Kept

theorem WellFormed.answers (h : c.WellFormed) (hk : c.Kept) : c.analysis.Answers := by
  have hpointsTo : ∀ p o, o ∈ c.analysis.pointsTo p ↔ o ∈ c.analysis.heap.pointsTo p := by
    intro p o
    rw [Analysis.pointsTo, Heap.inOrder, List.mem_filter, decide_eq_true_eq]
    exact and_iff_right_of_imp fun ho => (h.admits (.points p o) (.inl ho)).2
  constructor
  case made => exact hk.made
  case pointsToVar =>
    exact fun v => increasing_of_sublist c.analysis.heap.objs.nodup List.filter_sublist
  case mem_pointsToVar =>
    intro v o
    simp only [hpointsTo]
    exact h.mem_pointsToVar
  case mem_pointsTo => exact hpointsTo
  case allocSites => exact fun v => increasing_of_sublist hk.catalogued.nodup List.filter_sublist
  case mem_allocSites =>
    intro v s
    rw [h.mem_allocSites]
    simp only [h.mem_pointsToVar]
    constructor
    · rintro ⟨ctx, o, ho, hs⟩
      exact ⟨o, ⟨ctx, ho⟩, hs⟩
    · rintro ⟨o, ⟨ctx, ho⟩, hs⟩
      exact ⟨ctx, o, ho, hs⟩
  case typed =>
    intro o ho
    cases hty : c.analysis.heap.objs.find? o with
    | none => exact absurd ho (Table.find?_eq_none_iff.1 hty)
    | some ty =>
      rw [Heap.typeOf, Table.get, hty]
      exact h.typed o ty hty

end Core

/-- In a heap, objects and pointers are numbered one by one in order of creation, whatever is asked
of it. Between any calls of a solver, with any plugins and also after errors, the objects and
allocations of a variable are listed in order of creation, and are those of its pointers over all
contexts; and the type of an object is that of its allocation. -/
theorem interns_and_answers :
    (∀ l, Heap.Interns l) ∧
    ∀ P p (prepare : Script Unit) journal entries policy order calls,
      ((Solver.create P (prepare.run { program := p }).2 journal entries policy order).after
        calls).core.analysis.Answers := by
  refine ⟨Heap.interns_grown, fun P p prepare journal entries policy order calls => ?_⟩
  have hdevelops := prepare.run_develops { program := p }
  have hstart := Solver.wellFormed_create P (hdevelops.sound (Elements.sound_empty p)) journal
    entries policy order
  have hkept : (Solver.create P (prepare.run { program := p }).2 journal entries policy
      order).core.Kept :=
    ⟨⟨[], rfl⟩, hdevelops.catalogued (Elements.catalogued_empty p)⟩
  exact (Solver.wellFormed_after hstart calls).answers
    (Solver.keeps_after (fun _ _ _ he h => h.edit he) (fun _ h => h.next) hstart hkept calls)

end PointsTo
