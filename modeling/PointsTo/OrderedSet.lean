/-!
# Ordered sets

A finite set that keeps its members in order of insertion. The member at position `i` never
changes, so that a position can serve as the number of a member.

* `OrderedSet.insert` adds a member at the end, unless it is there already;
* `OrderedSet.diff` and `OrderedSet.union` keep the order of their first argument;
* `OrderedSet.index?` is the number of a member.
-/

namespace PointsTo

/-- In a list without repetition, what is found at a position is found nowhere else. -/
theorem idxOf?_eq_some_iff_getElem? {α : Type} [DecidableEq α] {l : List α} (h : l.Nodup) {a : α}
    {i : Nat} : l.idxOf? a = some i ↔ l[i]? = some a := by
  rw [List.idxOf?_eq_some_iff, List.getElem?_eq_some_iff]
  constructor
  · rintro ⟨hi, ha, -⟩
    exact ⟨hi, ha⟩
  · rintro ⟨hi, ha⟩
    refine ⟨hi, ha, fun j hj hja => ?_⟩
    have hij : j = i := (List.getElem_inj h).1 (hja.trans ha.symm)
    omega

/-- A finite set with its members in order of insertion. -/
structure OrderedSet (α : Type) where
  /-- The members, each once. -/
  toList : List α
  nodup : toList.Nodup

namespace OrderedSet

variable {α : Type}

instance : EmptyCollection (OrderedSet α) := ⟨⟨[], List.nodup_nil⟩⟩

instance : Inhabited (OrderedSet α) := ⟨∅⟩

instance : Membership α (OrderedSet α) := ⟨fun s a => a ∈ s.toList⟩

instance [DecidableEq α] (a : α) (s : OrderedSet α) : Decidable (a ∈ s) :=
  inferInstanceAs (Decidable (a ∈ s.toList))

@[simp] theorem mem_toList {a : α} {s : OrderedSet α} : a ∈ s.toList ↔ a ∈ s := Iff.rfl

@[simp] theorem toList_empty : (∅ : OrderedSet α).toList = [] := rfl

@[simp] theorem not_mem_empty (a : α) : a ∉ (∅ : OrderedSet α) := List.not_mem_nil

theorem ext_toList {s t : OrderedSet α} (h : s.toList = t.toList) : s = t := by
  cases s; cases t; congr

/-- The set with one member. -/
def singleton (a : α) : OrderedSet α := ⟨[a], by simp⟩

@[simp] theorem toList_singleton (a : α) : (singleton a).toList = [a] := rfl

@[simp] theorem mem_singleton {a b : α} : a ∈ singleton b ↔ a = b := List.mem_singleton

/-- The number of members. -/
def size (s : OrderedSet α) : Nat := s.toList.length

/-- Whether there is no member. -/
def isEmpty (s : OrderedSet α) : Bool := s.toList.isEmpty

theorem isEmpty_iff {s : OrderedSet α} : s.isEmpty = true ↔ ∀ a, a ∉ s := by
  rw [isEmpty, List.isEmpty_iff]
  exact List.eq_nil_iff_forall_not_mem

variable [DecidableEq α]

/-- The set with one more member, at the end unless it is there already. -/
def insert (s : OrderedSet α) (a : α) : OrderedSet α :=
  if h : a ∈ s.toList then s
  else ⟨s.toList ++ [a], by
    rw [List.nodup_append]
    exact ⟨s.nodup, by simp, by rintro b hb c hc rfl; simp_all⟩⟩

theorem toList_insert (s : OrderedSet α) (a : α) :
    (s.insert a).toList = if a ∈ s then s.toList else s.toList ++ [a] := by
  unfold insert
  split <;> rename_i h
  · rw [if_pos (show a ∈ s from h)]
  · rw [if_neg (show a ∉ s from h)]

@[simp] theorem mem_insert {s : OrderedSet α} {a b : α} : b ∈ s.insert a ↔ b ∈ s ∨ b = a := by
  rw [← mem_toList, toList_insert]
  split <;> simp_all

theorem insert_eq_self {s : OrderedSet α} {a : α} (h : a ∈ s) : s.insert a = s :=
  ext_toList (by rw [toList_insert, if_pos h])

theorem isPrefix_insert (s : OrderedSet α) (a : α) : s.toList <+: (s.insert a).toList := by
  rw [toList_insert]
  split
  · exact List.prefix_refl _
  · exact List.prefix_append _ _

/-- The members of a list, in order of their first occurrence. -/
def ofList (l : List α) : OrderedSet α := l.foldl insert ∅

/-- The members of `s` that are not in `t`. -/
def diff (s t : OrderedSet α) : OrderedSet α :=
  ⟨s.toList.filter (· ∉ t), s.nodup.filter _⟩

@[simp] theorem mem_diff {s t : OrderedSet α} {a : α} : a ∈ s.diff t ↔ a ∈ s ∧ a ∉ t := by
  rw [← mem_toList, diff]; simp

/-- The members of `s`, then those of `t` that `s` lacks. -/
def union (s t : OrderedSet α) : OrderedSet α :=
  ⟨s.toList ++ (t.diff s).toList, by
    rw [List.nodup_append]
    refine ⟨s.nodup, (t.diff s).nodup, ?_⟩
    rintro a ha b hb rfl
    exact (mem_diff.1 hb).2 ha⟩

theorem toList_union (s t : OrderedSet α) :
    (s.union t).toList = s.toList ++ (t.diff s).toList := rfl

@[simp] theorem mem_union {s t : OrderedSet α} {a : α} : a ∈ s.union t ↔ a ∈ s ∨ a ∈ t := by
  rw [← mem_toList, toList_union, List.mem_append, mem_toList, mem_toList, mem_diff]
  by_cases h : a ∈ s <;> simp [h]

/-- Whether every member of `s` is one of `t`. -/
def isSubset (s t : OrderedSet α) : Bool := s.toList.all (· ∈ t)

theorem isSubset_iff {s t : OrderedSet α} : s.isSubset t = true ↔ ∀ a ∈ s, a ∈ t := by
  simp [isSubset]

/-- The position of a member. -/
def index? (s : OrderedSet α) (a : α) : Option Nat := s.toList.idxOf? a

/-- The member at a position. -/
def at? (s : OrderedSet α) (i : Nat) : Option α := s.toList[i]?

theorem index?_eq_some_iff {s : OrderedSet α} {a : α} {i : Nat} :
    s.index? a = some i ↔ s.at? i = some a :=
  idxOf?_eq_some_iff_getElem? s.nodup

end OrderedSet

end PointsTo
