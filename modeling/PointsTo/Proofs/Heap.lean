import Mathlib.Data.List.Induction
import PointsTo.Heap
import PointsTo.Proofs.CallGraph.MethodGraph
import PointsTo.Proofs.Code.Edits

/-!
# Numbers of objects and pointers

Objects and pointers are numbered in order of creation. Whatever is asked of a heap, and in whatever
order, its tables fit together:

* `Numbered` and `Increasing`: numbers that stand for things one by one, and things in the order of
  their numbers;
* `Heap.Change` and `Heap.grown`: the heap that changes make of the empty one;
* `Heap.keys_objs_grown`, `Heap.keys_pointers_grown` and `Heap.pointersOf_grown`: its objects and
  pointers are those that were asked for, in this order, and the pointers of a variable are found
  among them;
* `Heap.Interns`: what follows for their numbers (`Heap.interns_grown`).
-/

namespace PointsTo

/-! ### Numbers -/

/-- The numbers below `n` stand for the things in `S`, one by one. -/
structure Numbered {α : Type} (index? : α → Option Nat) (n : Nat) (S : α → Prop) : Prop where
  exists_iff : ∀ a, (∃ i, index? a = some i) ↔ S a
  lt : ∀ a i, index? a = some i → i < n
  onto : ∀ i < n, ∃ a, index? a = some i
  injective : ∀ a b i, index? a = some i → index? b = some i → a = b

/-- The members of a list have numbers, each a larger one than those before it. -/
def Increasing {α : Type} (index? : α → Option Nat) (xs : List α) : Prop :=
  ∃ ns : List Nat, xs.map index? = ns.map some ∧ ns.Pairwise (· < ·)

section

variable {α : Type} [DecidableEq α] {xs ys : List α}

theorem numbered_idxOf? (h : xs.Nodup) : Numbered xs.idxOf? xs.length (· ∈ xs) where
  exists_iff a := by
    simp only [idxOf?_eq_some_iff_getElem? h]
    exact List.mem_iff_getElem?.symm
  lt a i hi := (List.getElem?_eq_some_iff.1 ((idxOf?_eq_some_iff_getElem? h).1 hi)).1
  onto i hi := ⟨xs[i], (idxOf?_eq_some_iff_getElem? h).2 (List.getElem?_eq_getElem hi)⟩
  injective a b i ha hb := by
    rw [idxOf?_eq_some_iff_getElem? h] at ha hb
    exact Option.some.inj (ha.symm.trans hb)

/-- Members that are listed in the same order have increasing positions. -/
theorem increasing_of_sublist (h : xs.Nodup) (hsub : ys.Sublist xs) :
    Increasing xs.idxOf? ys := by
  refine ⟨ys.map xs.idxOf, ?_, ?_⟩
  · rw [List.map_map]
    refine List.map_congr_left fun a ha => (idxOf?_eq_some_iff_getElem? h).2 ?_
    have hlt : xs.idxOf a < xs.length := List.idxOf_lt_length_of_mem (hsub.subset ha)
    exact (List.getElem?_eq_getElem hlt).trans (congrArg some (List.getElem_idxOf hlt))
  · rw [List.pairwise_map]
    refine List.Pairwise.sublist hsub (List.pairwise_iff_getElem.2 fun i j hi hj hij => ?_)
    rwa [h.idxOf_getElem, h.idxOf_getElem]

/-- A further member is left at the end, unless it is a repetition. -/
theorem eraseDups_concat (xs : List α) (a : α) :
    (xs ++ [a]).eraseDups = if a ∈ xs.eraseDups then xs.eraseDups else xs.eraseDups ++ [a] := by
  have hany : (xs.eraseDups.any fun b => a == b) = decide (a ∈ xs.eraseDups) := by
    rw [Bool.eq_iff_iff]
    simp
  rw [List.eraseDups, eraseDupsBy_concat, ← List.eraseDups, hany]
  simp only [decide_eq_true_eq]

end

theorem Numbered.congr {α : Type} {index? : α → Option Nat} {n : Nat} {S T : α → Prop}
    (h : Numbered index? n S) (hS : ∀ a, S a ↔ T a) : Numbered index? n T :=
  { h with exists_iff := fun a => (h.exists_iff a).trans (hS a) }

namespace Table

variable {κ ν : Type} [DecidableEq κ]

theorem numbered (t : Table κ ν) : Numbered t.index? t.size (· ∈ t.keys) := by
  have hsize : t.keys.length = t.size := List.length_map _
  exact hsize ▸ numbered_idxOf? t.nodup

theorem index?_eq_some_getD {t : Table κ ν} {k : κ} (h : k ∈ t.keys) :
    t.index? k = some ((t.index? k).getD 0) := by
  obtain ⟨i, hi⟩ := (t.numbered.exists_iff k).2 h
  rw [hi]
  rfl

/-- A key keeps its number when the table is continued at its end. -/
theorem index?_of_isPrefix {t t' : Table κ ν} (h : t.keys <+: t'.keys) {k : κ} {i : Nat}
    (hi : t.index? k = some i) : t'.index? k = some i :=
  index?_eq_some_iff.2 (Code.getElem?_of_isPrefix h (index?_eq_some_iff.1 hi))

end Table

/-! ### Changes -/

/-- The pointer is a variable in some context. -/
def Pointer.isOf (v : VarId) : Pointer → Bool
  | .var _ w => w = v
  | .field _ _ => false

theorem Pointer.isOf_iff {v : VarId} {p : Pointer} : p.isOf v = true ↔ ∃ c, p = .var c v := by
  cases p <;> simp [isOf]

namespace Heap

/-- One way to change a heap. -/
inductive Change where
  | obj (o : Obj) (ty : Ty)
  | pointer (p : Pointer)
  | extend (p : Pointer) (os : PointsToSet)

/-- The object that a change asks for. -/
def Change.obj? : Change → Option Obj
  | .obj o _ => some o
  | .pointer _ | .extend _ _ => none

/-- The pointer that a change asks for. -/
def Change.pointer? : Change → Option Pointer
  | .pointer p => some p
  | .obj _ _ | .extend _ _ => none

/-- The heap after a change. -/
def changed (h : Heap) : Change → Heap
  | .obj o ty => h.addObj o ty
  | .pointer p => h.addPointer p
  | .extend p os => h.extend p os

/-- The heap that changes make of the empty one. -/
def grown (l : List Change) : Heap := l.foldl changed ∅

theorem grown_concat (l : List Change) (x : Change) : grown (l ++ [x]) = (grown l).changed x :=
  List.foldl_append

/-- The objects are those that were asked for, in this order. -/
theorem keys_objs_grown (l : List Change) :
    (grown l).objs.keys = (l.filterMap Change.obj?).eraseDups := by
  induction l using List.reverseRecOn with
  | nil => rfl
  | append_singleton l x ih =>
    rw [grown_concat, List.filterMap_append]
    cases x with
    | obj o ty =>
      show ((grown l).objs.insert o ty).keys = _
      rw [Table.keys_insert, ih]
      exact (eraseDups_concat _ o).symm
    | pointer p =>
      show ((grown l).addPointer p).objs.keys = _
      rw [objs_addPointer]
      exact ih.trans (congrArg List.eraseDups (List.append_nil _).symm)
    | extend p os =>
      show (grown l).objs.keys = _
      exact ih.trans (congrArg List.eraseDups (List.append_nil _).symm)

/-- The pointers are those that were asked for, in this order. -/
theorem keys_pointers_grown (l : List Change) :
    (grown l).pointers.keys = (l.filterMap Change.pointer?).eraseDups := by
  induction l using List.reverseRecOn with
  | nil => rfl
  | append_singleton l x ih =>
    rw [grown_concat, List.filterMap_append]
    cases x with
    | obj o ty =>
      show (grown l).pointers.keys = _
      exact ih.trans (congrArg List.eraseDups (List.append_nil _).symm)
    | pointer p =>
      show ((grown l).addPointer p).pointers.keys = _
      rw [keys_addPointer, ih]
      exact (eraseDups_concat _ p).symm
    | extend p os =>
      show ((grown l).pointers.modify p _).keys = _
      rw [Table.keys_modify]
      exact ih.trans (congrArg List.eraseDups (List.append_nil _).symm)

theorem pointersOf_addPointer {h : Heap} {p : Pointer} (hp : p ∉ h.pointers.keys) (v : VarId) :
    (h.addPointer p).pointersOf v = h.pointersOf v ++ if p.isOf v then [p] else [] := by
  have hd : ([] : List Pointer) = default := rfl
  unfold addPointer
  rw [if_neg fun hcontains => hp (Table.contains_iff.1 hcontains)]
  cases p with
  | field o x => simp [pointersOf, Pointer.isOf]
  | var c w =>
    show (h.varPointers.update w [] (· ++ [.var c w])).get v = _
    rw [hd, Table.get_update_default]
    by_cases hw : v = w
    · subst hw
      simp [pointersOf, Pointer.isOf]
    · simp [pointersOf, Pointer.isOf, hw, Ne.symm hw, ← hd]

/-- The pointers of a variable are found among all pointers, in order of creation. -/
theorem pointersOf_grown (l : List Change) (v : VarId) :
    (grown l).pointersOf v = (grown l).pointers.keys.filter (·.isOf v) := by
  induction l using List.reverseRecOn with
  | nil => rfl
  | append_singleton l x ih =>
    rw [grown_concat]
    cases x with
    | obj o ty => exact ih
    | pointer p =>
      show ((grown l).addPointer p).pointersOf v = ((grown l).addPointer p).pointers.keys.filter _
      rw [keys_addPointer]
      split <;> rename_i hp
      · have hsame : (grown l).addPointer p = grown l := if_pos (Table.contains_iff.2 hp)
        rw [hsame]
        exact ih
      · rw [pointersOf_addPointer hp, ih, List.filter_append, List.filter_cons, List.filter_nil]
    | extend p os =>
      show (grown l).pointersOf v = ((grown l).pointers.modify p _).keys.filter _
      rw [Table.keys_modify]
      exact ih

/-! ### Numbers of objects and pointers -/

/-- The tables of the heap that changes make of the empty one fit together. -/
structure Interns (l : List Change) : Prop where
  /-- Objects are numbered by allocation and context. -/
  objs : Numbered (grown l).objs.index? (grown l).objs.size fun o => ∃ ty, .obj o ty ∈ l
  /-- Exactly the pointers that were asked for are found. -/
  pointers : Numbered (grown l).index? (grown l).pointers.size fun p => .pointer p ∈ l
  mem_pointersOf : ∀ v p, p ∈ (grown l).pointersOf v ↔ (∃ c, p = .var c v) ∧ .pointer p ∈ l
  pointersOf : ∀ v, Increasing (grown l).index? ((grown l).pointersOf v)
  getObj : ∀ o ty, ((grown l).getObj o ty).2.objs.index? o = some ((grown l).getObj o ty).1
  getPointer : ∀ p, ((grown l).getPointer p).2.index? p = some ((grown l).getPointer p).1
  /-- Later changes leave numbers alone. -/
  kept_objs : ∀ l' o i, (grown l).objs.index? o = some i → (grown (l ++ l')).objs.index? o = some i
  kept_pointers : ∀ l' p i, (grown l).index? p = some i → (grown (l ++ l')).index? p = some i

theorem mem_keys_objs_grown {l : List Change} {o : Obj} :
    o ∈ (grown l).objs.keys ↔ ∃ ty, .obj o ty ∈ l := by
  rw [keys_objs_grown, List.mem_eraseDups, List.mem_filterMap]
  constructor
  · rintro ⟨⟨o', ty⟩ | p | ⟨p, os⟩, hx, ⟨⟩⟩
    exact ⟨ty, hx⟩
  · rintro ⟨ty, hx⟩
    exact ⟨_, hx, rfl⟩

theorem mem_keys_pointers_grown {l : List Change} {p : Pointer} :
    p ∈ (grown l).pointers.keys ↔ .pointer p ∈ l := by
  rw [keys_pointers_grown, List.mem_eraseDups, List.mem_filterMap]
  constructor
  · rintro ⟨⟨o', ty⟩ | p | ⟨p, os⟩, hx, ⟨⟩⟩
    exact hx
  · exact fun hx => ⟨_, hx, rfl⟩

/-- Whatever is asked of a heap, objects and pointers are numbered one by one, and the pointers of
a variable are listed in this order. -/
theorem interns_grown (l : List Change) : Interns l where
  objs := (grown l).objs.numbered.congr fun _ => mem_keys_objs_grown
  pointers := (grown l).pointers.numbered.congr fun _ => mem_keys_pointers_grown
  mem_pointersOf v p := by
    rw [pointersOf_grown, List.mem_filter, mem_keys_pointers_grown, and_comm, Pointer.isOf_iff]
  pointersOf v := by
    rw [pointersOf_grown]
    exact increasing_of_sublist (grown l).pointers.nodup List.filter_sublist
  getObj o ty := Table.index?_eq_some_getD (Table.mem_keys_insert.2 (.inr rfl))
  getPointer p := Table.index?_eq_some_getD (mem_keys_addPointer.2 (.inr rfl))
  kept_objs l' o i hi := by
    refine Table.index?_of_isPrefix ?_ hi
    rw [keys_objs_grown, keys_objs_grown, List.filterMap_append, List.eraseDups_append]
    exact List.prefix_append _ _
  kept_pointers l' p i hi := by
    refine Table.index?_of_isPrefix ?_ hi
    rw [keys_pointers_grown, keys_pointers_grown, List.filterMap_append, List.eraseDups_append]
    exact List.prefix_append _ _

end Heap

end PointsTo
