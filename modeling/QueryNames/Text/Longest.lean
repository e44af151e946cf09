import QueryNames.Text

/-!
# The longest match

Keywords, spellings and properties are all read by one rule: of the entries of a table that can be
read, the longest wins.
-/

namespace QueryNames.Text

variable {α β : Type}

/-- The longest entry of a table that `read` accepts, with what `read` gives for it. -/
def longest? (size : α → Nat) (read : α → Option β) (table : List α) : Option (α × β) :=
  (table.filterMap fun a ↦ (read a).map (a, ·)).maxOn? fun m ↦ size m.1

/-- The winner belongs to the table and can be read. -/
theorem of_longest? {size : α → Nat} {read : α → Option β} {table : List α} {a : α} {b : β}
    (h : longest? size read table = some (a, b)) : a ∈ table ∧ read a = some b := by
  have hm := List.maxOn?_mem h
  simp only [List.mem_filterMap, Option.map_eq_some_iff, Prod.mk.injEq] at hm
  obtain ⟨a', ha', b', hb', rfl, rfl⟩ := hm
  exact ⟨ha', hb'⟩

/-- No entry that can be read is longer than the winner. -/
theorem size_le_of_longest? {size : α → Nat} {read : α → Option β} {table : List α} {a c : α}
    {b d : β} (h : longest? size read table = some (a, b)) (hc : c ∈ table)
    (hd : read c = some d) : size c ≤ size a := by
  have hm : (c, d) ∈ table.filterMap fun a ↦ (read a).map (a, ·) :=
    List.mem_filterMap.mpr ⟨c, hc, by simp [hd]⟩
  have hle := List.le_apply_get_maxOn?_of_mem (f := fun m : α × β ↦ size m.1) hm
  simp only [longest?] at h
  simpa [h] using hle

/-- There is no winner exactly when no entry can be read. -/
theorem longest?_eq_none_iff {size : α → Nat} {read : α → Option β} {table : List α} :
    longest? size read table = none ↔ ∀ a ∈ table, read a = none := by
  rw [← Option.not_isSome_iff_eq_none, longest?, List.isSome_maxOn?_iff, ne_eq,
    Decidable.not_not, List.filterMap_eq_nil_iff]
  simp

end QueryNames.Text
