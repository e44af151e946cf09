import QueryNames.Proofs.Identifier
import QueryNames.Proofs.Keywords
import QueryNames.Query.Complete
import QueryNames.Reading.Predicate

/-!
# The text of a criterion

A criterion is written as its property and the keyword of its operator, with its marker behind the
property, behind the keyword, or between two parts of the keyword of which the first is a keyword
too. In a separable schema such a text is read as that criterion, and it is split off from whatever
follows it.
-/

namespace QueryNames

open Text

instance (p : Property) : Decidable p.LacksMarkers :=
  inferInstanceAs (Decidable (LacksMarkers p.identifier))

instance (s : Schema) : Decidable s.IsSeparable :=
  decidable_of_iff
    (s.IsPrefixFree ∧ (∀ p ∈ s.properties, p.LacksMarkers) ∧
      (∀ p ∈ s.properties, p.LacksIntroducer) ∧ ∀ p ∈ s.properties, p.HeadIsFree)
    ⟨fun ⟨h, h', h'', h'''⟩ ↦ ⟨h, h', h'', h'''⟩,
      fun h ↦ ⟨h.isPrefixFree, h.lacksMarkers, h.lacksIntroducer, h.headIsFree⟩⟩

/-- The small schema is separable. -/
theorem Schema.isSeparable_sample : sample.IsSeparable := by decide +kernel

namespace Predicate

/-- A property with a calm text behind it takes the rest of the text when no word ends it. -/
theorem splitCriterion_eq_none {s : Schema} {t x : Text} {q : Property}
    (hq : s.headProperty? t = some (q, x)) (hx : Terminator.isCalm x = true) :
    splitCriterion s t = (t, none) := by
  have hsplit : Keyword.splitAtFirst? Terminator.word Terminator.all x = none := by
    have hpass : Keyword.splitAtFirst? Terminator.word Terminator.all (x ++ []) =
        (Keyword.splitAtFirst? Terminator.word Terminator.all []).map
          fun r ↦ (x ++ r.1, r.2) := by
      apply Keyword.splitAtFirst?_append
      intro a b hab hb
      have hcalm : Terminator.isCalm (a ++ b) = true := hab ▸ hx
      exact Terminator.readLongest?_eq_none_of_isCalm (Terminator.isCalm_of_append hcalm) hb []
    rw [List.append_nil] at hpass
    rw [hpass, Keyword.splitAtFirst?, Option.map_none]
  rw [splitCriterion, hq]
  simp only [hsplit, ← (Schema.eq_of_headProperty? hq).2]

/-- A property with a calm text behind it is split off by the word that follows. -/
theorem splitCriterion_eq_some {s : Schema} {x y behind : Text} {q : Property} {w : Terminator}
    (hq : s.headProperty? (q.identifier ++ (x ++ y)) = some (q, x ++ y))
    (hx : Terminator.isCalm x = true)
    (hy : Keyword.readLongest? Terminator.word Terminator.all y = some (w, behind)) :
    splitCriterion s (q.identifier ++ (x ++ y)) = (q.identifier ++ x, some (w, behind)) := by
  have hne : y ≠ [] := by
    rintro rfl
    have := Keyword.eq_of_readLongest? hy
    exact Terminator.word_ne_nil w (List.append_eq_nil_iff.mp this.symm).1
  have hsplit : Keyword.splitAtFirst? Terminator.word Terminator.all (x ++ y) =
      some (x, w, behind) := by
    have hpass : ∀ a b, x = a ++ b → b ≠ [] →
        Keyword.readLongest? Terminator.word Terminator.all (b ++ y) = none := by
      intro a b hab hb
      have hcalm : Terminator.isCalm (a ++ b) = true := hab ▸ hx
      exact Terminator.readLongest?_eq_none_of_isCalm (Terminator.isCalm_of_append hcalm) hb y
    rw [Keyword.splitAtFirst?_append hpass, Keyword.splitAtFirst?_of_readLongest? hne hy]
    simp
  rw [splitCriterion, hq]
  simp only [hsplit]

end Predicate

namespace Criterion

/-- A text writes a criterion in full. -/
def IsWritten (s : Schema) (c : Criterion) (t : Text) : Prop :=
  ∃ p ∈ s.properties, ∃ front back : Text,
    c.property = some p ∧ c.residue = [] ∧ c.keyword = front ++ back ∧
      (front = [] ∨ front ∈ Operator.keywords) ∧
      t = p.identifier ++ (front ++ (c.markerWord ++ back))

/-- Without an operator there is no keyword. -/
theorem keyword_of_spelling_eq_none {c : Criterion} (h : c.spelling = none) : c.keyword = [] := by
  rw [keyword, h]
  rfl

/-- The keyword of a criterion is that of its operator. -/
theorem keyword_of_spelling_eq_some {c : Criterion} {sp : Spelling} (h : c.spelling = some sp) :
    c.keyword = sp.keyword := by
  rw [keyword, h]
  rfl

/-- The keyword of a criterion is empty or in the table. -/
theorem keyword_eq_nil_or_mem (c : Criterion) : c.keyword = [] ∨ c.keyword ∈ Operator.keywords := by
  cases h : c.spelling with
  | none => exact Or.inl (keyword_of_spelling_eq_none h)
  | some sp =>
    right
    rw [keyword_of_spelling_eq_some h]
    exact sp.keyword_mem_keywords

/-- The keyword of a criterion is read as its operator. -/
theorem read?_keyword (c : Criterion) : Spelling.read? c.keyword = c.spelling.map (·, []) := by
  cases h : c.spelling with
  | none =>
    rw [keyword_of_spelling_eq_none h]
    exact Spelling.read?_nil
  | some sp =>
    rw [keyword_of_spelling_eq_some h]
    exact sp.read?_keyword

/-- The canonical text of a criterion writes it in full. -/
theorem IsDeclared.isWritten_text {s : Schema} {c : Criterion} (h : c.IsDeclared s) :
    c.IsWritten s c.text := by
  obtain ⟨p, hp, hcp⟩ := h.property_mem
  refine ⟨p, hp, c.keyword, [], hcp, h.residue_eq_nil, (List.append_nil _).symm,
    c.keyword_eq_nil_or_mem, ?_⟩
  simp only [text, hcp, List.append_nil, List.append_assoc]

namespace IsWritten

variable {s : Schema} {c : Criterion} {t : Text}

/-- The whole of a text that writes a criterion is understood. -/
theorem isDeclared (h : c.IsWritten s t) : c.IsDeclared s := by
  obtain ⟨p, hp, front, back, hcp, hres, -⟩ := h
  exact ⟨⟨p, hp, hcp⟩, hres⟩

/-- A text that writes a criterion opens. -/
theorem opens (h : c.IsWritten s t) : Opens t := by
  obtain ⟨p, hp, front, back, -, -, -, -, rfl⟩ := h
  exact (opens_append_of_ne_nil (s.named p hp).identifier_ne_nil).mpr p.opens_identifier

/-- A text that writes a criterion is not empty. -/
theorem ne_nil (h : c.IsWritten s t) : t ≠ [] := by
  obtain ⟨p, hp, front, back, -, -, -, -, rfl⟩ := h
  exact fun he ↦ (s.named p hp).identifier_ne_nil (List.append_eq_nil_iff.mp he).1

/-- The words behind the property of a criterion end no criterion. -/
theorem isCalm_words {front back : Text} (hk : c.keyword = front ++ back)
    (hf : front = [] ∨ front ∈ Operator.keywords) :
    Terminator.isCalm (front ++ (c.markerWord ++ back)) = true := by
  have hcalm : ∀ k : Text, k = [] ∨ k ∈ Operator.keywords → Terminator.isCalm k = true := by
    rintro k (rfl | hk)
    · rfl
    · exact Terminator.isCalm_of_mem_keywords hk
  have hback : Terminator.isCalm back = true :=
    Terminator.isCalm_of_append (hk ▸ hcalm _ c.keyword_eq_nil_or_mem)
  refine Terminator.isCalm_append (hcalm front hf) (Terminator.isCalm_append ?_ hback)
  rw [markerWord]
  cases c.marker with
  | none => rfl
  | some m => exact Terminator.isCalm_marker m

private theorem opens_back {front back : Text} (hk : c.keyword = front ++ back)
    (hf : front = [] ∨ front ∈ Operator.keywords) : Opens back := by
  rcases c.keyword_eq_nil_or_mem with h | h
  · rw [h] at hk
    rw [(List.append_eq_nil_iff.mp hk.symm).2]
    exact opens_nil
  · exact Operator.opens_of_append_mem_keywords hf (hk ▸ h)

private theorem opens_markerWord (c : Criterion) : Opens c.markerWord := by
  rw [markerWord]
  cases c.marker with
  | none => exact opens_nil
  | some m =>
    rw [Option.map_some, Option.getD_some, CaseMarker.word_eq_cons]
    exact opens_cons.mpr rfl

/-- A text that writes a criterion is read as it. -/
theorem ofText_eq (hs : s.IsSeparable) (h : c.IsWritten s t) : ofText s t = c := by
  obtain ⟨p, hp, front, back, hcp, hres, hk, hf, rfl⟩ := h
  have hfront : LacksMarkers (p.identifier ++ front) := by
    rcases hf with rfl | hf
    · rw [List.append_nil]
      exact hs.lacksMarkers p hp
    · exact LacksMarkers.append_keyword (hs.lacksMarkers p hp) hf
  have hcut : CaseMarker.cut (p.identifier ++ (front ++ (c.markerWord ++ back))) =
      (c.marker, p.identifier ++ c.keyword) := by
    rw [hk, ← List.append_assoc, ← List.append_assoc p.identifier front back]
    rcases hm : c.marker with _ | m
    · have hw : c.markerWord = [] := by rw [markerWord, hm]; rfl
      have hall : LacksMarkers (p.identifier ++ c.keyword) := by
        rcases c.keyword_eq_nil_or_mem with hn | hn
        · rw [hn, List.append_nil]
          exact hs.lacksMarkers p hp
        · exact LacksMarkers.append_keyword (hs.lacksMarkers p hp) hn
      rw [hw, List.nil_append]
      rw [hk, ← List.append_assoc] at hall
      exact CaseMarker.cut_of_lacksMarkers hall
    · have hw : c.markerWord = m.word := by rw [markerWord, hm]; rfl
      rw [hw]
      exact CaseMarker.cut_append m back hfront
  simp only [ofText, hcut, hs.isPrefixFree.headProperty?_append hp, read?_keyword]
  rcases c with ⟨property, spelling, marker, residue⟩
  obtain rfl : property = some p := hcp
  obtain rfl : residue = [] := hres
  cases spelling <;> rfl

/-- In a separable schema no identifier reaches beyond a text that writes a criterion. -/
theorem fits (hs : s.IsSeparable) (h : c.IsWritten s t) (y : Text) : s.Fits t y := by
  obtain ⟨p, hp, front, back, -, -, -, -, rfl⟩ := h
  exact hs.isPrefixFree.fits hp _ y

/-- A text that writes a criterion is split off by the word that follows, unless an identifier
reaches beyond it. -/
theorem splitCriterion_append (h : c.IsWritten s t) {y behind : Text} {w : Terminator}
    (hf : s.Fits t y)
    (hy : Keyword.readLongest? Terminator.word Terminator.all y = some (w, behind)) :
    Predicate.splitCriterion s (t ++ y) = (t, some (w, behind)) := by
  obtain ⟨p, hp, front, back, hcp, hres, hk, hfront, rfl⟩ := h
  obtain ⟨q, hq, z, x, heq, hx, hhead⟩ := hf.exists_headProperty?_eq hp
  have hcalm : Terminator.isCalm x = true :=
    Terminator.isCalm_of_append (hx ▸ isCalm_words hk hfront)
  rw [heq, List.append_assoc]
  exact Predicate.splitCriterion_eq_some hhead hcalm hy

/-- At the end of a name a text that writes a criterion is split off as a whole. -/
theorem splitCriterion_self (h : c.IsWritten s t) : Predicate.splitCriterion s t = (t, none) := by
  obtain ⟨p, hp, front, back, hcp, hres, hk, hfront, rfl⟩ := h
  have hf : s.Fits (p.identifier ++ (front ++ (c.markerWord ++ back))) [] := by
    intro q _ hpre
    rw [List.append_nil] at hpre
    exact hpre.length_le
  obtain ⟨q, hq, z, x, heq, hx, hhead⟩ := hf.exists_headProperty?_eq hp
  have hcalm : Terminator.isCalm x = true :=
    Terminator.isCalm_of_append (hx ▸ isCalm_words hk hfront)
  rw [List.append_nil] at hhead
  rw [heq]
  exact Predicate.splitCriterion_eq_none hhead hcalm

/-- The word `By` has no place in a text that writes a criterion. -/
theorem count_introducer (hs : s.IsSeparable) (h : c.IsWritten s t) :
    Keyword.count Word.introducer t = 0 := by
  obtain ⟨p, hp, front, back, hcp, hres, hk, hf, rfl⟩ := h
  have hby := Word.isCapitalWord_introducer
  have hkey : ∀ k : Text, k = [] ∨ k ∈ Operator.keywords →
      Keyword.count Word.introducer k = 0 := by
    rintro k (rfl | hk)
    · rfl
    · exact Operator.count_introducer_of_mem_keywords hk
  have hmarker : Keyword.count Word.introducer c.markerWord = 0 := by
    rw [markerWord]
    rcases c.marker with _ | (_ | _)
    · rfl
    · decide
    · decide
  have hback := opens_back hk hf
  have hwhole := hkey c.keyword c.keyword_eq_nil_or_mem
  rw [hk, Keyword.count_append hby hback, hkey front hf] at hwhole
  have hfront : Opens front := by
    rcases hf with rfl | hf
    · exact opens_nil
    · exact Operator.opens_of_append_mem_keywords (u := []) (Or.inl rfl) hf
  have hmb := (opens_markerWord c).append hback
  rw [Keyword.count_append hby (hfront.append hmb), Keyword.count_append hby hmb,
    Keyword.count_append hby hback, (hs.lacksIntroducer p hp).count_eq_zero, hkey front hf, hmarker]
  omega

/-- A text that writes a criterion consists of name characters. -/
theorem all_isNameChar (h : c.IsWritten s t) : t.all isNameChar = true := by
  obtain ⟨p, hp, front, back, hcp, hres, hk, hf, rfl⟩ := h
  have hkey : c.keyword.all isNameChar = true := by
    rcases c.keyword_eq_nil_or_mem with h | h
    · rw [h]
      rfl
    · exact Operator.all_isNameChar_of_mem_keywords h
  have hmarker : c.markerWord.all isNameChar = true := by
    rw [markerWord]
    rcases c.marker with _ | (_ | _) <;> decide
  rw [hk, List.all_append, Bool.and_eq_true] at hkey
  simp only [List.all_append, Bool.and_eq_true]
  exact ⟨(s.named p hp).all_isNameChar, hkey.1, hmarker, hkey.2⟩

end IsWritten

end Criterion

end QueryNames
