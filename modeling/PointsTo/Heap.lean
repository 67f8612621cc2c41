import PointsTo.Context
import PointsTo.Table

/-!
# Objects and pointers

A pointer is a variable in a context or a field of an object, and refers to a set of objects.

* `Pointer` and `PointsToSet`;
* `Heap` holds the objects and pointers in order of creation, with the set of each pointer;
* `Heap.addObj` and `Heap.addPointer` create an object or a pointer unless it exists,
  `Heap.getObj` and `Heap.getPointer` give its number as well;
* `Heap.extend` lets a pointer refer to further objects.
-/

namespace PointsTo

/-- A set of objects. -/
abbrev PointsToSet := OrderedSet Obj

/-- What can refer to objects. -/
inductive Pointer where
  /-- A variable in a context. -/
  | var (c : Context) (v : VarId)
  /-- A field of an object. -/
  | field (o : Obj) (f : FieldId)
deriving DecidableEq

/-- The objects and pointers of an analysis. -/
structure Heap where
  /-- The objects with their types. -/
  objs : Table Obj Ty := ∅
  /-- The pointers with the objects they refer to. -/
  pointers : Table Pointer PointsToSet := ∅
  /-- The pointers of each variable, over all contexts. -/
  varPointers : Table VarId (List Pointer) := ∅

namespace Heap

instance : EmptyCollection Heap := ⟨{}⟩

instance : Inhabited Heap := ⟨∅⟩

/-- The heap with an object; the type that an object was created with stays. -/
def addObj (h : Heap) (o : Obj) (ty : Ty) : Heap :=
  { h with objs := h.objs.insert o ty }

/-- The heap with a pointer, which refers to nothing when it is new. -/
def addPointer (h : Heap) (p : Pointer) : Heap :=
  if h.pointers.contains p then h
  else
    { h with
      pointers := h.pointers.insert p ∅
      varPointers := match p with
        | .var _ v => h.varPointers.update v [] (· ++ [p])
        | .field _ _ => h.varPointers }

/-- The objects that a pointer refers to. -/
def pointsTo (h : Heap) (p : Pointer) : PointsToSet := h.pointers.get p

/-- The heap in which a pointer refers to the objects of `os` as well. -/
def extend (h : Heap) (p : Pointer) (os : PointsToSet) : Heap :=
  { h with pointers := h.pointers.modify p (·.union os) }

/-- The pointers of a variable over all contexts, in order of creation. -/
def pointersOf (h : Heap) (v : VarId) : List Pointer := h.varPointers.get v

/-- The type of an object. -/
def typeOf (h : Heap) (o : Obj) : Ty := h.objs.get o

/-- The number of a pointer, if it exists. -/
def index? (h : Heap) (p : Pointer) : Option Nat := h.pointers.index? p

/-- The number of an object, which is created unless it exists. -/
def getObj (h : Heap) (o : Obj) (ty : Ty) : Nat × Heap :=
  (((h.addObj o ty).objs.index? o).getD 0, h.addObj o ty)

/-- The number of a pointer, which is created unless it exists. -/
def getPointer (h : Heap) (p : Pointer) : Nat × Heap :=
  (((h.addPointer p).index? p).getD 0, h.addPointer p)

/-- The objects of a set in order of their creation. -/
def inOrder (h : Heap) (os : Obj → Bool) : List Obj := h.objs.keys.filter os

theorem pointsTo_addPointer (h : Heap) (p q : Pointer) :
    (h.addPointer p).pointsTo q = h.pointsTo q := by
  unfold addPointer
  split
  · rfl
  · exact Table.get_insert_default h.pointers p q

theorem keys_addPointer (h : Heap) (p : Pointer) : (h.addPointer p).pointers.keys =
    if p ∈ h.pointers.keys then h.pointers.keys else h.pointers.keys ++ [p] := by
  unfold addPointer
  split <;> rename_i hp
  · rw [if_pos (Table.contains_iff.1 hp)]
  · have hnew : p ∉ h.pointers.keys := fun h => hp (Table.contains_iff.2 h)
    rw [Table.keys_insert, if_neg hnew]

theorem mem_keys_addPointer {h : Heap} {p p' : Pointer} :
    p' ∈ (h.addPointer p).pointers.keys ↔ p' ∈ h.pointers.keys ∨ p' = p := by
  unfold addPointer
  split <;> rename_i hp
  · rw [Table.contains_iff] at hp
    exact ⟨.inl, fun h' => h'.elim id fun h' => h' ▸ hp⟩
  · exact Table.mem_keys_insert

theorem objs_addPointer (h : Heap) (p : Pointer) : (h.addPointer p).objs = h.objs := by
  unfold addPointer
  split <;> rfl

theorem mem_pointsTo_extend {h : Heap} {p q : Pointer} {os : PointsToSet} {o : Obj} :
    o ∈ (h.extend p os).pointsTo q ↔
      o ∈ h.pointsTo q ∨ (q = p ∧ p ∈ h.pointers.keys) ∧ o ∈ os := by
  simp only [pointsTo, extend, Table.get_modify]
  split <;> rename_i hp
  · obtain ⟨rfl, _⟩ := hp
    simp_all
  · simp [hp]

end Heap

end PointsTo
