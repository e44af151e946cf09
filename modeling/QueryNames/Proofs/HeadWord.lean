import Mathlib.Data.List.TakeWhile
import QueryNames.Text.Keyword
import QueryNames.Vocabulary

/-!
# The word at the head of a text

Whether a keyword can be read is decided by its text and by one character: a word that ends in a
letter is read exactly where no small letter follows it. For the words of a single hump more holds,
since such a word is read exactly where it is the whole word at the head of the text. What follows
the head of a text therefore never changes which of these words is read there.
-/

namespace QueryNames

namespace Text

/-- No small letter stands at the head of a text, so no word in front of it runs on into it. -/
def Opens (t : Text) : Prop := ∀ c ∈ t.head?, c.isLower = false

@[simp] theorem opens_nil : Opens [] := by simp [Opens]

@[simp] theorem opens_cons {c : Char} {t : Text} : Opens (c :: t) ↔ c.isLower = false := by
  simp [Opens]

instance : (t : Text) → Decidable (Opens t)
  | [] => isTrue opens_nil
  | c :: _ => decidable_of_iff (c.isLower = false) opens_cons.symm

/-- A text that opens does so when it goes on, unless it is empty and what is added does not. -/
theorem Opens.append_of_nil {s t : Text} (hs : Opens s) (ht : s = [] → Opens t) :
    Opens (s ++ t) := by
  cases s with
  | nil => exact ht rfl
  | cons c s => exact opens_cons.mpr (opens_cons.mp hs)

/-- Behind a text that opens a hump or is empty, anything that does so may follow. -/
theorem Opens.append {s t : Text} (hs : Opens s) (ht : Opens t) : Opens (s ++ t) :=
  hs.append_of_nil fun _ ↦ ht

/-- What follows a nonempty text does not matter. -/
theorem opens_append_of_ne_nil {s t : Text} (hne : s ≠ []) : Opens (s ++ t) ↔ Opens s := by
  cases s with
  | nil => exact absurd rfl hne
  | cons c s => simp only [List.cons_append, opens_cons]

/-- The beginning of a text that opens does so too. -/
theorem Opens.of_isPrefix {s t : Text} (ht : Opens t) (hs : s <+: t) : Opens s := by
  obtain ⟨r, rfl⟩ := hs
  cases s with
  | nil => exact opens_nil
  | cons c s => exact ht

/-- Dropping the small letters leaves a text without one at its head. -/
theorem opens_dropWhile_isLower (t : Text) : Opens (t.dropWhile Char.isLower) := by
  intro c hc
  have hn := List.head?_dropWhile_not Char.isLower t
  rw [hc] at hn
  simpa using hn

/-- A word whose last character is a letter. -/
def endsInLetter (t : Text) : Bool := t.getLast?.any Char.isAlpha

/-- A single capital letter with small letters behind it. -/
def isCapitalWord : Text → Bool
  | [] => false
  | c :: t => c.isUpper && t.all Char.isLower

/-- The first character of a text and the small letters behind it. -/
def headWord : Text → Text
  | [] => []
  | c :: t => c :: t.takeWhile Char.isLower

/-- No hump runs from a letter into a text exactly when no small letter stands at its head. -/
theorem isSeam_iff_opens {b : Char} (hb : b.isAlpha = true) (t : Text) :
    isSeam (some b) t = true ↔ Opens t := by
  cases t with
  | nil => simp
  | cons c t =>
    have hd : b.isDigit = false := by
      by_contra hd
      rw [Bool.not_eq_false] at hd
      unfold Char.isAlpha at hb
      rw [isLower_eq_false_of_isDigit hd, Bool.or_false] at hb
      rw [isDigit_eq_false_of_isUpper hb] at hd
      cases hd
    have hu : b ≠ '_' := by
      rintro rfl
      cases hb
    rw [opens_cons, isSeam]
    cases c.isLower <;> simp [hb, hd, hu]

/-- Whether a hump runs on depends on nothing but the character at the head of a text. -/
theorem isSeam_congr {t u : Text} (b : Option Char) (h : t.head? = u.head?) :
    isSeam b t = isSeam b u := by
  cases t with
  | nil =>
    cases u with
    | nil => rfl
    | cons d u => cases h
  | cons c t =>
    cases u with
    | nil => cases h
    | cons d u =>
      obtain rfl : c = d := Option.some.inj h
      cases b <;> rfl

/-- A capital word ends in a letter. -/
theorem endsInLetter_of_isCapitalWord {k : Text} (h : isCapitalWord k = true) :
    endsInLetter k = true := by
  cases k with
  | nil => simp [isCapitalWord] at h
  | cons c t =>
    simp only [isCapitalWord, Bool.and_eq_true, List.all_eq_true] at h
    obtain ⟨hc, ht⟩ := h
    rw [endsInLetter, List.getLast?_eq_some_getLast (List.cons_ne_nil c t), Option.any_some]
    unfold Char.isAlpha
    rw [Bool.or_eq_true]
    rcases List.mem_cons.mp (List.getLast_mem (List.cons_ne_nil c t)) with he | hm
    · rw [he]
      exact Or.inl hc
    · exact Or.inr (ht _ hm)

/-- A capital word opens, whatever follows it. -/
theorem opens_append_of_isCapitalWord {k : Text} (hk : isCapitalWord k = true) (t : Text) :
    Opens (k ++ t) := by
  cases k with
  | nil => simp [isCapitalWord] at hk
  | cons c s =>
    rw [isCapitalWord, Bool.and_eq_true] at hk
    exact opens_cons.mpr (isLower_eq_false_of_isUpper hk.1)

/-- No letter of a text is taken from what opens behind it. -/
theorem takeWhile_isLower_append {s t : Text} (ht : Opens t) :
    (s ++ t).takeWhile Char.isLower = s.takeWhile Char.isLower := by
  induction s with
  | nil =>
    cases t with
    | nil => rfl
    | cons d t => simp [opens_cons.mp ht]
  | cons c s ih => simp only [List.cons_append, List.takeWhile_cons, ih]

@[simp] theorem headWord_nil : headWord [] = [] := rfl

/-- What opens behind a text does not change the word at its head. -/
theorem headWord_append {s t : Text} (hne : s ≠ []) (ht : Opens t) :
    headWord (s ++ t) = headWord s := by
  cases s with
  | nil => exact absurd rfl hne
  | cons c s => rw [List.cons_append, headWord, headWord, takeWhile_isLower_append ht]

/-- A capital word is the word at its own head. -/
theorem headWord_of_isCapitalWord {k : Text} (hk : isCapitalWord k = true) : headWord k = k := by
  cases k with
  | nil => rfl
  | cons c s =>
    simp only [isCapitalWord, Bool.and_eq_true, List.all_eq_true] at hk
    rw [headWord, List.takeWhile_eq_self_iff.mpr hk.2]

/-- The word at the head and the rest, which opens a hump or is empty, make up the text. -/
theorem exists_eq_headWord_append (t : Text) : ∃ r, t = headWord t ++ r ∧ Opens r := by
  cases t with
  | nil => exact ⟨[], rfl, opens_nil⟩
  | cons c t =>
    refine ⟨t.dropWhile Char.isLower, ?_, opens_dropWhile_isLower t⟩
    rw [headWord, List.cons_append, List.takeWhile_append_dropWhile]

end Text

namespace Keyword

open Text

/-- A word that ends in a letter is read exactly where no small letter follows it. -/
theorem read?_eq_some_iff_opens {k t behind : Text} (hk : endsInLetter k = true) :
    read? k t = some behind ↔ t = k ++ behind ∧ Opens behind := by
  rw [read?_eq_some_iff]
  cases hl : k.getLast? with
  | none => simp [endsInLetter, hl] at hk
  | some b =>
    rw [endsInLetter, hl, Option.any_some] at hk
    rw [isSeam_iff_opens hk]

/-- A word that ends in a letter is read in front of whatever opens. -/
theorem read?_append {k behind : Text} (hk : endsInLetter k = true) (hb : Opens behind) :
    read? k (k ++ behind) = some behind :=
  (read?_eq_some_iff_opens hk).mpr ⟨rfl, hb⟩

/-- A capital word is read exactly where it is the word at the head. -/
theorem isSome_read?_iff {k t : Text} (hk : isCapitalWord k = true) :
    (read? k t).isSome ↔ headWord t = k := by
  have hl := endsInLetter_of_isCapitalWord hk
  constructor
  · intro h
    obtain ⟨behind, hr⟩ := Option.isSome_iff_exists.mp h
    obtain ⟨rfl, hb⟩ := (read?_eq_some_iff_opens hl).mp hr
    have hne : k ≠ [] := by
      rintro rfl
      simp [isCapitalWord] at hk
    rw [headWord_append hne hb, headWord_of_isCapitalWord hk]
  · intro h
    obtain ⟨r, ht, hr⟩ := exists_eq_headWord_append t
    rw [ht, h, read?_append hl hr]
    rfl

/-- A capital word cannot be read exactly where another word stands at the head. -/
theorem read?_eq_none_iff {k t : Text} (hk : isCapitalWord k = true) :
    read? k t = none ↔ headWord t ≠ k := by
  rw [ne_eq, ← isSome_read?_iff hk, Option.not_isSome_iff_eq_none]

end Keyword

namespace Word

open Text

/-- The word between what is asked for and the criteria is a capital word. -/
theorem isCapitalWord_introducer : isCapitalWord introducer = true := by decide

/-- The word between what is asked for and the criteria opens. -/
theorem opens_introducer_append (t : Text) : Opens (introducer ++ t) :=
  opens_append_of_isCapitalWord isCapitalWord_introducer t

/-- The word between what is asked for and the criteria does not begin with a digit. -/
theorem isDigit_head_introducer_append (t : Text) :
    ∀ c ∈ (introducer ++ t).head?, c.isDigit = false := by
  intro c hc
  obtain rfl : 'B' = c := Option.some.inj hc
  rfl

/-- The word between what is asked for and the criteria is read in front of whatever opens. -/
theorem read?_introducer_append {t : Text} (ht : Opens t) :
    Keyword.read? introducer (introducer ++ t) = some t :=
  Keyword.read?_append (endsInLetter_of_isCapitalWord isCapitalWord_introducer) ht

end Word

end QueryNames
