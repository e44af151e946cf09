import QueryNames.Reading.Edge
import QueryNames.Text.Keyword

/-!
# Reading the subject

The section `[Distinct] [Top|First [number]] [property] By`. A text in the place of the property
that is none is passed over up to the next `By`.
-/

namespace QueryNames.Subject

open Text

/-- Reads the word that asks for different results; the result tells whether it stood there. -/
def readDistinct (t : Text) : Bool × Text :=
  match Keyword.read? Word.distinct t with
  | some behind => (true, behind)
  | none => (false, t)

/-- The word and the text behind it make up the text. -/
theorem eq_of_readDistinct {t rest : Text} {distinct : Bool}
    (h : readDistinct t = (distinct, rest)) :
    t = (if distinct then Word.distinct else []) ++ rest := by
  simp only [readDistinct] at h
  split at h
  · next behind hr =>
    obtain ⟨rfl, rfl⟩ := by simpa using h
    simpa using (Keyword.read?_eq_some_iff.mp hr).1
  · obtain ⟨rfl, rfl⟩ := by simpa using h
    simp

/-- Reads a limit word and the digits behind it. -/
def readLimit (t : Text) : Option Text × Text :=
  match Keyword.readLongest? LimitWord.word LimitWord.all t with
  | some (_, behind) => (some (digits behind), behindDigits behind)
  | none => (none, t)

/-- The limit word, the digits and the text behind them make up the text. -/
theorem eq_of_readLimit {t ds rest : Text} (h : readLimit t = (some ds, rest)) :
    ∃ w : LimitWord, t = w.word ++ ds ++ rest := by
  simp only [readLimit] at h
  split at h
  · next w behind hr =>
    obtain ⟨rfl, rfl⟩ := by simpa using h
    refine ⟨w, ?_⟩
    rw [List.append_assoc, digits_append_behindDigits]
    exact Keyword.eq_of_readLongest? hr
  · simp at h

/-- Without a limit word the text is left as it is. -/
theorem eq_of_readLimit_none {t rest : Text} (h : readLimit t = (none, rest)) : rest = t := by
  simp only [readLimit] at h
  split at h
  · simp at h
  · simpa using h.symm

/-- The defect of a limit whose digits have no proper value. -/
def limitDefects (digits : Option Text) : List Defect :=
  match digits with
  | some ds => if (Limit.ofDigits? ds).isNone then [.invalidLimit ds] else []
  | none => []

/-- Reads a property with `By` behind it. -/
def readProperty? (s : Schema) (t : Text) : Option (Property × Text) :=
  (s.headProperty? t).bind fun m ↦ (Keyword.read? Word.introducer m.2).map (m.1, ·)

/-- The property, `By` and the text behind them make up the text. -/
theorem eq_of_readProperty? {s : Schema} {t behind : Text} {p : Property}
    (h : readProperty? s t = some (p, behind)) :
    p ∈ s.properties ∧ t = p.identifier ++ Word.introducer ++ behind := by
  simp only [readProperty?, Option.bind_eq_some_iff, Option.map_eq_some_iff, Prod.mk.injEq,
    Prod.exists] at h
  obtain ⟨q, rest, hq, r, hr, rfl, rfl⟩ := h
  obtain ⟨hmem, ht⟩ := Schema.eq_of_headProperty? hq
  exact ⟨hmem, by rw [ht, (Keyword.read?_eq_some_iff.mp hr).1, List.append_assoc]⟩

/-- Reads what is asked for up to the criteria. -/
def read (s : Schema) (t : Text) : Passage Subject :=
  let (distinct, behindDistinct) := readDistinct t
  let (number, rest) := readLimit behindDistinct
  let limit := number.map fun ds ↦ (Limit.ofDigits? ds).getD .implicit
  let defects := limitDefects number
  match Keyword.read? Word.introducer rest with
  | some behind => ⟨⟨distinct, limit, none⟩, defects, .resume behind⟩
  | none =>
    match readProperty? s rest with
    | some (p, behind) => ⟨⟨distinct, limit, some p⟩, defects, .resume behind⟩
    | none =>
      match Keyword.splitAtFirst? id [Word.introducer] rest with
      | some (before, _, behind) =>
        ⟨⟨distinct, limit, none⟩, defects ++ [.unknownSubject before], .resume behind⟩
      | none =>
        match s.headProperty? rest with
        | some (p, behind) =>
          ⟨⟨distinct, limit, some p⟩, defects ++ [.missingBy], .stop ⟨.introducer, behind⟩⟩
        | none =>
          let hasNumber := number.any (· ≠ [])
          ⟨⟨distinct, limit, none⟩, defects ++ [.missingBy],
            .stop ⟨.subject distinct limit.isSome hasNumber, rest⟩⟩

end QueryNames.Subject
