import QueryNames.Text

/-!
# Sets of texts in order

Completion shows its options without repetition and in the order of their code points, which is also
the order of their UTF-8 bytes.
-/

namespace QueryNames.Text

/-- Puts a text at its place in an ascending list, unless it is there already. -/
def insertSorted (x : Text) : List Text → List Text
  | [] => [x]
  | y :: ys =>
    if x < y then x :: y :: ys
    else if x = y then y :: ys
    else y :: insertSorted x ys

/-- The given texts in ascending order, each once. -/
def sortedSet (xs : List Text) : List Text := xs.foldr insertSorted []

@[simp] theorem mem_insertSorted {a x : Text} {ys : List Text} :
    a ∈ insertSorted x ys ↔ a = x ∨ a ∈ ys := by
  induction ys with
  | nil => simp [insertSorted]
  | cons y ys ih =>
    simp only [insertSorted]
    split
    · simp
    · split
      · next h => simp [h]
      · simp only [List.mem_cons, ih]
        exact or_left_comm

/-- Sorting neither loses nor invents a text. -/
@[simp] theorem mem_sortedSet {a : Text} {xs : List Text} : a ∈ sortedSet xs ↔ a ∈ xs := by
  induction xs with
  | nil => simp [sortedSet]
  | cons x xs ih => simpa [sortedSet] using or_congr_right ih

private theorem pairwise_insertSorted (x : Text) {ys : List Text} (h : ys.Pairwise (· < ·)) :
    (insertSorted x ys).Pairwise (· < ·) := by
  induction ys with
  | nil => simp [insertSorted]
  | cons y ys ih =>
    obtain ⟨hy, hys⟩ := List.pairwise_cons.mp h
    simp only [insertSorted]
    split
    · next hxy =>
      refine List.pairwise_cons.mpr ⟨fun a ha ↦ ?_, h⟩
      rcases List.mem_cons.mp ha with rfl | ha
      · exact hxy
      · exact List.lt_trans hxy (hy a ha)
    · next hxy =>
      split
      · exact h
      · next hne =>
        refine List.pairwise_cons.mpr ⟨fun a ha ↦ ?_, ih hys⟩
        rcases mem_insertSorted.mp ha with rfl | ha
        · exact (List.le_iff_lt_or_eq.mp (List.not_lt.mp hxy)).resolve_right (Ne.symm hne)
        · exact hy a ha

/-- The sorted set ascends strictly, so it has no repetition. -/
theorem pairwise_sortedSet (xs : List Text) : (sortedSet xs).Pairwise (· < ·) := by
  induction xs with
  | nil => simp [sortedSet]
  | cons x xs ih => exact pairwise_insertSorted x ih

end QueryNames.Text
