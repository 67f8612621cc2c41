/-!
# Sorting

`Sorting.sort le l` is the list `l` in the order `le`. Members that `le` does not tell apart stay in
the order in which they stand in `l`.
-/

namespace PointsTo.Sorting

variable {α : Type} (le : α → α → Bool)

/-- Puts `a` before the first member that may follow it. -/
def insert (a : α) : List α → List α
  | [] => [a]
  | b :: l => if le a b then a :: b :: l else b :: insert a l

/-- The members of a list in order. -/
def sort : List α → List α
  | [] => []
  | a :: l => insert le a (sort l)

theorem insert_perm (a : α) (l : List α) : (insert le a l).Perm (a :: l) := by
  induction l with
  | nil => exact .refl _
  | cons b l ih =>
    unfold insert
    split
    · exact .refl _
    · exact (ih.cons b).trans (.swap a b l)

theorem sort_perm (l : List α) : (sort le l).Perm l := by
  induction l with
  | nil => exact .refl _
  | cons a l ih => exact (insert_perm le a _).trans (ih.cons a)

@[simp] theorem mem_sort {a : α} {l : List α} : a ∈ sort le l ↔ a ∈ l :=
  (sort_perm le l).mem_iff

variable {le}

theorem pairwise_insert (trans : ∀ a b c, le a b = true → le b c = true → le a c = true)
    (total : ∀ a b, le a b = true ∨ le b a = true) {l : List α} (a : α)
    (h : l.Pairwise fun x y => le x y = true) :
    (insert le a l).Pairwise fun x y => le x y = true := by
  induction l with
  | nil => simp [insert]
  | cons b l ih =>
    obtain ⟨hb, hl⟩ := List.pairwise_cons.1 h
    unfold insert
    split <;> rename_i hab
    · refine List.pairwise_cons.2 ⟨fun c hc => ?_, h⟩
      rcases List.mem_cons.1 hc with rfl | hc
      · exact hab
      · exact trans a b c hab (hb c hc)
    · refine List.pairwise_cons.2 ⟨fun c hc => ?_, ih hl⟩
      rcases List.mem_cons.1 ((insert_perm le a l).mem_iff.1 hc) with rfl | hc
      · exact (total b c).resolve_right hab
      · exact hb c hc

/-- The result is in order, if `le` is a total order apart from ties. -/
theorem pairwise_sort (trans : ∀ a b c, le a b = true → le b c = true → le a c = true)
    (total : ∀ a b, le a b = true ∨ le b a = true) (l : List α) :
    (sort le l).Pairwise fun x y => le x y = true := by
  induction l with
  | nil => exact .nil
  | cons a l ih => exact pairwise_insert trans total a ih

end PointsTo.Sorting
