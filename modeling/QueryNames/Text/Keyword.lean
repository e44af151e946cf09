import QueryNames.Text.Hump
import QueryNames.Text.Longest

/-!
# Keywords

A keyword is read where it stands if no hump runs across its end: `Or` is not read at the head of
`Order`. Of several keywords the longest is read, and a search goes through every place of a text.
Each reader gives back the text behind what it has read; the laws say that the two make up the text.
-/

namespace QueryNames.Keyword

open Text

variable {α : Type}

/-- Reads a keyword at the head of a text; the result is the text behind it. -/
def read? (keyword t : Text) : Option Text :=
  (keyword.isPrefixOf? t).filter (isSeam keyword.getLast?)

/-- Reads the longest keyword of a table at the head of a text. -/
def readLongest? (word : α → Text) (table : List α) (t : Text) : Option (α × Text) :=
  longest? (fun k ↦ (word k).length) (fun k ↦ read? (word k) t) table

/-- Splits a text at the first place where a keyword of the table can be read: the text before it,
the longest keyword there and the text behind it. -/
def splitAtFirst? (word : α → Text) (table : List α) : Text → Option (Text × α × Text)
  | [] => none
  | c :: t =>
    match readLongest? word table (c :: t) with
    | some (k, behind) => some ([], k, behind)
    | none => (splitAtFirst? word table t).map fun (before, m) ↦ (c :: before, m)

/-- The number of places at which a keyword can be read. -/
def count (keyword : Text) : Text → Nat
  | [] => 0
  | c :: t => (if (read? keyword (c :: t)).isSome then 1 else 0) + count keyword t

/-- A keyword is read exactly where the text starts with it and a hump ends behind it. -/
theorem read?_eq_some_iff {keyword t behind : Text} :
    read? keyword t = some behind ↔ t = keyword ++ behind ∧ isSeam keyword.getLast? behind := by
  simp only [read?, Option.filter_eq_some_iff, isPrefixOf?_eq_some_iff]

/-- The longest keyword and the text behind it make up the text. -/
theorem eq_of_readLongest? {word : α → Text} {table : List α} {t behind : Text} {k : α}
    (h : readLongest? word table t = some (k, behind)) : t = word k ++ behind :=
  (read?_eq_some_iff.mp (of_longest? h).2).1

/-- What is left behind a keyword ends the text. -/
theorem suffix_of_readLongest? {word : α → Text} {table : List α} {t behind : Text} {k : α}
    (h : readLongest? word table t = some (k, behind)) : behind <:+ t :=
  ⟨word k, (eq_of_readLongest? h).symm⟩

/-- The three parts of a split make up the text. -/
theorem eq_of_splitAtFirst? {word : α → Text} {table : List α} {t before behind : Text} {k : α}
    (h : splitAtFirst? word table t = some (before, k, behind)) :
    t = before ++ word k ++ behind := by
  induction t generalizing before with
  | nil => simp [splitAtFirst?] at h
  | cons c t ih =>
    simp only [splitAtFirst?] at h
    split at h
    · next k' r hr =>
      obtain ⟨rfl, rfl, rfl⟩ := by simpa using h
      simpa using eq_of_readLongest? hr
    · simp only [Option.map_eq_some_iff, Prod.mk.injEq, Prod.exists] at h
      obtain ⟨b, m, r, hs, rfl, rfl, rfl⟩ := h
      simp [ih hs]

/-- Behind a nonempty keyword less text is left. -/
theorem length_lt_of_readLongest? {word : α → Text} {table : List α} {t behind : Text} {k : α}
    (hne : ∀ k, word k ≠ []) (h : readLongest? word table t = some (k, behind)) :
    behind.length < t.length := by
  have := List.length_pos_iff.mpr (hne k)
  rw [eq_of_readLongest? h, List.length_append]
  omega

/-- Behind the nonempty keyword of a split less text is left. -/
theorem length_lt_of_splitAtFirst? {word : α → Text} {table : List α} {t before behind : Text}
    {k : α} (hne : ∀ k, word k ≠ []) (h : splitAtFirst? word table t = some (before, k, behind)) :
    behind.length < t.length := by
  have := List.length_pos_iff.mpr (hne k)
  rw [eq_of_splitAtFirst? h, List.length_append, List.length_append]
  omega

end QueryNames.Keyword
