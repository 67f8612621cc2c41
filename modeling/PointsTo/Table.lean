import PointsTo.OrderedSet

/-!
# Tables

A finite map that keeps its keys in order of insertion. The key at position `i` never changes, so
that a position can serve as the number of a key.

* `Table.insert` adds an entry at the end, unless its key is there already;
* `Table.modify` changes the value at a key;
* `Table.find?` is the value at a key, `Table.index?` the number of a key.
-/

namespace PointsTo

/-- A finite map with its keys in order of insertion. -/
structure Table (κ ν : Type) where
  /-- The entries, with distinct keys. -/
  entries : List (κ × ν)
  nodup : (entries.map Prod.fst).Nodup

namespace Table

variable {κ ν : Type}

instance : EmptyCollection (Table κ ν) := ⟨⟨[], List.nodup_nil⟩⟩

instance : Inhabited (Table κ ν) := ⟨∅⟩

/-- The keys in order of insertion. -/
def keys (t : Table κ ν) : List κ := t.entries.map Prod.fst

/-- The values in the order of their keys. -/
def values (t : Table κ ν) : List ν := t.entries.map Prod.snd

/-- The number of entries. -/
def size (t : Table κ ν) : Nat := t.entries.length

@[simp] theorem keys_empty : (∅ : Table κ ν).keys = [] := rfl

/-- The key at a position. -/
def keyAt? (t : Table κ ν) (i : Nat) : Option κ := t.keys[i]?

variable [DecidableEq κ]

/-- The value at a key. -/
def find? (t : Table κ ν) (k : κ) : Option ν := t.entries.lookup k

/-- The value at a key, the default one when there is none. -/
def get [Inhabited ν] (t : Table κ ν) (k : κ) : ν := (t.find? k).getD default

/-- Whether there is an entry for a key. -/
def contains (t : Table κ ν) (k : κ) : Bool := k ∈ t.keys

/-- The position of a key. -/
def index? (t : Table κ ν) (k : κ) : Option Nat := t.keys.idxOf? k

/-- The table with an entry for `k`: a new one at the end with value `v`, unless there is one. -/
def insert (t : Table κ ν) (k : κ) (v : ν) : Table κ ν :=
  if h : k ∈ t.keys then t
  else ⟨t.entries ++ [(k, v)], by
    rw [List.map_append, List.nodup_append]
    refine ⟨t.nodup, by simp, ?_⟩
    rintro a ha b hb rfl
    simp only [List.map_cons, List.map_nil, List.mem_singleton] at hb
    exact h (hb ▸ ha)⟩

theorem entries_insert_of_not_mem {t : Table κ ν} {k : κ} (h : k ∉ t.keys) {v : ν} :
    (t.insert k v).entries = t.entries ++ [(k, v)] := by
  rw [insert, dif_neg h]

theorem keys_insert (t : Table κ ν) (k : κ) (v : ν) :
    (t.insert k v).keys = if k ∈ t.keys then t.keys else t.keys ++ [k] := by
  unfold insert
  split <;> simp_all [keys]

theorem isPrefix_insert (t : Table κ ν) (k : κ) (v : ν) :
    t.entries <+: (t.insert k v).entries := by
  unfold insert
  split
  · exact List.prefix_refl _
  · exact List.prefix_append _ _

theorem index?_eq_some_iff {t : Table κ ν} {k : κ} {i : Nat} :
    t.index? k = some i ↔ t.keyAt? i = some k :=
  idxOf?_eq_some_iff_getElem? t.nodup

/-- The table with `f` applied to the value at `k`, if there is one. -/
def modify (t : Table κ ν) (k : κ) (f : ν → ν) : Table κ ν :=
  ⟨t.entries.map fun e => if e.1 = k then (e.1, f e.2) else e, by
    rw [List.map_map, show Prod.fst ∘ _ = (Prod.fst : κ × ν → κ) by
      funext e; simp only [Function.comp_apply]; split <;> rfl]
    exact t.nodup⟩

@[simp] theorem keys_modify (t : Table κ ν) (k : κ) (f : ν → ν) :
    (t.modify k f).keys = t.keys := by
  simp only [keys, modify, List.map_map]
  congr 1
  funext e
  simp only [Function.comp_apply]
  split <;> rfl

/-- The table with `f` applied to the value at `k`, which is `v` when there is no entry yet. -/
def update (t : Table κ ν) (k : κ) (v : ν) (f : ν → ν) : Table κ ν :=
  (t.insert k v).modify k f

/-! ### Values -/

theorem find?_eq_none_iff {t : Table κ ν} {k : κ} : t.find? k = none ↔ k ∉ t.keys := by
  rw [find?, List.lookup_eq_none_iff, keys, List.mem_map]
  constructor
  · rintro h ⟨e, he, rfl⟩
    simpa using h e he
  · intro h e he
    simpa using fun hk : k = e.1 => h ⟨e, he, hk.symm⟩

theorem find?_eq_some_iff {t : Table κ ν} {k : κ} {v : ν} :
    t.find? k = some v ↔ (k, v) ∈ t.entries := by
  obtain ⟨l, h⟩ := t
  show l.lookup k = some v ↔ (k, v) ∈ l
  induction l with
  | nil => simp
  | cons x l ih =>
    obtain ⟨k', v'⟩ := x
    obtain ⟨hnot, hnodup⟩ := List.nodup_cons.1 h
    rw [List.lookup_cons, List.mem_cons, Prod.mk.injEq]
    by_cases hk : k = k'
    · subst hk
      have hmem : (k, v) ∉ l := fun hm => hnot (List.mem_map.2 ⟨(k, v), hm, rfl⟩)
      simp [hmem, eq_comm]
    · rw [beq_false_of_ne hk]
      simp [hk, ih hnodup]

theorem find?_insert (t : Table κ ν) (k : κ) (v : ν) (k' : κ) :
    (t.insert k v).find? k' = if k' = k then some ((t.find? k).getD v) else t.find? k' := by
  unfold insert
  split <;> rename_i h
  · split <;> rename_i hk
    · subst hk
      cases hf : t.find? k' with
      | none => exact absurd h (find?_eq_none_iff.1 hf)
      | some w => rfl
    · rfl
  · rw [← find?_eq_none_iff] at h
    rw [h]
    simp only [find?, List.lookup_append, Option.getD_none]
    split <;> rename_i hk
    · subst hk
      rw [find?] at h
      simp [h]
    · simp [List.lookup_cons, beq_false_of_ne hk]

theorem find?_modify (t : Table κ ν) (k : κ) (f : ν → ν) (k' : κ) :
    (t.modify k f).find? k' = if k' = k then (t.find? k).map f else t.find? k' := by
  simp only [find?, modify]
  generalize t.entries = l
  induction l with
  | nil => simp
  | cons e l ih =>
    obtain ⟨a, b⟩ := e
    by_cases ha : a = k
    · subst ha
      by_cases hk : k' = a
      · subst hk; simp
      · simp [List.lookup_cons, hk, beq_false_of_ne hk, ih]
    · by_cases hk : k' = a
      · subst hk; simp [ha]
      · by_cases hkk : k' = k
        · subst hkk
          simp [List.lookup_cons, ha, beq_false_of_ne hk, ih]
        · simp [List.lookup_cons, ha, beq_false_of_ne hk, hkk, ih]

/-- A change that leaves the value at the key alone changes nothing. -/
theorem modify_eq_self {t : Table κ ν} {k : κ} {f : ν → ν}
    (h : ∀ v, t.find? k = some v → f v = v) : t.modify k f = t := by
  obtain ⟨l, hl⟩ := t
  simp only [modify, mk.injEq]
  refine (List.map_congr_left fun e he => ?_).trans (List.map_id l)
  split <;> rename_i hk
  · subst hk
    rw [h e.2 (find?_eq_some_iff.2 he)]
    rfl
  · rfl

theorem contains_iff {t : Table κ ν} {k : κ} : t.contains k = true ↔ k ∈ t.keys := by
  simp [contains]

theorem isSome_find? (t : Table κ ν) (k : κ) : (t.find? k).isSome = t.contains k := by
  rw [Bool.eq_iff_iff, contains_iff, Option.isSome_iff_ne_none, ne_eq, find?_eq_none_iff]
  exact Decidable.not_not

theorem mem_keys_insert {t : Table κ ν} {k k' : κ} {v : ν} :
    k' ∈ (t.insert k v).keys ↔ k' ∈ t.keys ∨ k' = k := by
  rw [keys_insert]
  split <;> simp_all

variable [Inhabited ν]

theorem get_insert_default (t : Table κ ν) (k k' : κ) : (t.insert k default).get k' = t.get k' := by
  simp only [get, find?_insert]
  split <;> rename_i h
  · subst h; rfl
  · rfl

theorem get_of_not_mem {t : Table κ ν} {k : κ} (h : k ∉ t.keys) : t.get k = default := by
  rw [get, find?_eq_none_iff.2 h]; rfl

theorem get_modify (t : Table κ ν) (k : κ) (f : ν → ν) (k' : κ) :
    (t.modify k f).get k' = if k' = k ∧ k ∈ t.keys then f (t.get k) else t.get k' := by
  simp only [get, find?_modify]
  by_cases hk : k' = k
  · subst hk
    cases hf : t.find? k' with
    | none => simp [find?_eq_none_iff.1 hf]
    | some v =>
      have hm : k' ∈ t.keys := Decidable.not_not.1 fun h => by
        simp [find?_eq_none_iff.2 h] at hf
      simp [hm]
  · simp [hk]

theorem get_update_default (t : Table κ ν) (k : κ) (f : ν → ν) (k' : κ) :
    (t.update k default f).get k' = if k' = k then f (t.get k) else t.get k' := by
  rw [update, get_modify]
  simp [mem_keys_insert, get_insert_default]

end Table

end PointsTo
