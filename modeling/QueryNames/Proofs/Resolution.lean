import QueryNames.Proofs.Carets

/-!
# The property at the head of a text

A list of properties is a schema exactly if its names can stand in a query name and no two of them
take the same form there. Of the properties that can then be read at the head of a text one is
longer than all others, and that one is found. More text behind it never makes the find shorter.
-/

namespace QueryNames

open Text

variable {ps : List Property} {s : Schema} {p : Property} {t behind : Text}

namespace Schema

/-- A schema comes from the list of its properties and from no other list. -/
theorem ofList?_eq_ok_iff : ofList? ps = .ok s ↔ s.properties = ps := by
  unfold ofList?
  split
  · next fault hfault =>
    refine iff_of_false (by simp) ?_
    rintro rfl
    rw [(fault?_eq_none_iff _).mpr ⟨s.named, s.nodup_identifiers⟩] at hfault
    cases hfault
  · next hnone =>
    rw [Except.ok.injEq]
    constructor
    · rintro rfl
      rfl
    · rintro rfl
      rfl

/-- A list of properties is a schema exactly if each of them has a name made of name characters and
no two of them have the same identifier. -/
theorem exists_ofList?_iff :
    (∃ s, ofList? ps = .ok s) ↔
      (∀ p ∈ ps, p.IsNamed) ∧ ps.Pairwise fun p q ↦ p.identifier ≠ q.identifier := by
  rw [← List.pairwise_map]
  constructor
  · rintro ⟨s, hs⟩
    rw [← ofList?_eq_ok_iff.mp hs]
    exact ⟨s.named, s.nodup_identifiers⟩
  · rintro ⟨hnamed, hnodup⟩
    exact ⟨⟨ps, hnamed, hnodup⟩, ofList?_eq_ok_iff.mpr rfl⟩

/-- The property stands at the head of a text, and every other one there takes fewer bytes. -/
structure IsLongestAt (s : Schema) (t : Text) (p : Property) : Prop where
  mem : p ∈ s.properties
  head : p.identifier <+: t
  longest : ∀ q ∈ s.properties, q.identifier <+: t →
    q = p ∨ byteSize q.identifier < byteSize p.identifier

/-- The property that is found at the head of a text is longer than all others there. -/
theorem exists_headProperty?_iff :
    (∃ behind, s.headProperty? t = some (p, behind)) ↔ s.IsLongestAt t p := by
  constructor
  · rintro ⟨behind, h⟩
    obtain ⟨hp, rfl, hmax⟩ := headProperty?_eq_some_iff.mp h
    have hhead : p.identifier <+: p.identifier ++ behind := List.prefix_append _ _
    refine ⟨hp, hhead, fun q hq hqt ↦ ?_⟩
    by_cases hlt : q.identifier.length < p.identifier.length
    · refine Or.inr (Nat.lt_of_not_le fun hle ↦ ?_)
      have := (byteSize_le_iff hhead hqt).mp hle
      omega
    · have heq := (List.prefix_of_prefix_length_le hqt hhead (hmax q hq hqt)).eq_of_length_le
        (Nat.le_of_not_lt hlt)
      exact Or.inl (eq_of_identifier_eq hq hp heq)
  · rintro ⟨hp, ⟨behind, rfl⟩, hmax⟩
    refine ⟨behind, headProperty?_eq_some_iff.mpr ⟨hp, rfl, fun q hq hqt ↦ ?_⟩⟩
    rcases hmax q hq hqt with rfl | hlt
    · exact Nat.le_refl _
    · exact (byteSize_le_iff hqt (List.prefix_append _ _)).mp hlt.le

/-- A property at the head of a text takes as many bytes there as its name has, at least one. -/
theorem sliceTo_of_headProperty? (h : s.headProperty? t = some (p, behind)) :
    t.sliceTo (byteSize p.name) = .ok p.identifier ∧
      t.sliceFrom (byteSize p.name) = .ok behind ∧
        1 ≤ byteSize p.name ∧ byteSize p.name ≤ byteSize t := by
  obtain ⟨hp, rfl⟩ := eq_of_headProperty? h
  have hnamed := s.named p hp
  have hsize : byteSize p.name ≠ 0 := fun hzero ↦ hnamed.1 ((byteSize_eq_zero_iff _).mp hzero)
  rw [← hnamed.byteSize_identifier] at hsize ⊢
  refine ⟨sliceTo_append _ _, sliceFrom_append _ _, by omega, ?_⟩
  rw [byteSize_append]
  exact Nat.le_add_right _ _

/-- With more text behind it, a property that is found stays or gives way to a longer one. -/
theorem exists_headProperty?_append (h : s.headProperty? t = some (p, behind)) (x : Text) :
    ∃ q rest, s.headProperty? (t ++ x) = some (q, rest) ∧ byteSize p.name ≤ byteSize q.name := by
  obtain ⟨hp, rfl⟩ := eq_of_headProperty? h
  have hhead : p.identifier <+: (p.identifier ++ behind) ++ x :=
    (List.prefix_append _ behind).trans (List.prefix_append _ x)
  cases hfound : s.headProperty? ((p.identifier ++ behind) ++ x) with
  | none => exact absurd hhead (headProperty?_eq_none_iff.mp hfound p hp)
  | some m =>
    obtain ⟨q, rest⟩ := m
    have hlongest := exists_headProperty?_iff.mp ⟨rest, hfound⟩
    refine ⟨q, rest, rfl, ?_⟩
    rw [← (s.named p hp).byteSize_identifier, ← (s.named q hlongest.mem).byteSize_identifier]
    rcases hlongest.longest p hp hhead with rfl | hlt
    · exact Nat.le_refl _
    · exact hlt.le

/-- Properties are found by the exact longest match. A list of properties is a schema exactly if
each name is a word of ASCII letters, digits and underscores and no two names have the same
identifier. At the head of any text the schema then finds nothing exactly if no identifier stands
there, and else the one property whose identifier is longer than all others there, with the number
of bytes that the identifier takes. Asking a property whether it stands at the head of a text, which
does not build its identifier, gives the same answer as comparing with the identifier. More text
behind a find never makes it shorter. -/
theorem headProperty?_exact (ps : List Property) :
    ((∃ s, ofList? ps = .ok s) ↔
        (∀ p ∈ ps, p.name ≠ [] ∧ ∀ c ∈ p.name, c.isAlphanum = true ∨ c = '_') ∧
          ps.Pairwise fun p q ↦ p.identifier ≠ q.identifier) ∧
      ∀ s, ofList? ps = .ok s → s.properties = ps ∧
        ∀ t, (s.headProperty? t = none ↔ ∀ p ∈ ps, ¬p.identifier <+: t) ∧
          (∀ p, (∃ behind, s.headProperty? t = some (p, behind)) ↔ s.IsLongestAt t p) ∧
          (∀ p behind, s.headProperty? t = some (p, behind) →
            byteSize p.name = byteSize p.identifier ∧
              t.sliceTo (byteSize p.name) = .ok p.identifier ∧
              t.sliceFrom (byteSize p.name) = .ok behind ∧
              1 ≤ byteSize p.name ∧ byteSize p.name ≤ byteSize t ∧
              ∀ x, ∃ q rest, s.headProperty? (t ++ x) = some (q, rest) ∧
                byteSize p.name ≤ byteSize q.name) ∧
          ∀ p ∈ ps, (p.strip? t).isSome ↔ p.identifier <+: t := by
  constructor
  · rw [exists_ofList?_iff]
    refine and_congr_left fun _ ↦ forall₂_congr fun p _ ↦ and_congr_right fun _ ↦ ?_
    rw [List.all_eq_true]
    refine forall₂_congr fun c _ ↦ ?_
    rw [isNameChar, Bool.or_eq_true, beq_iff_eq]
  · intro s hs
    obtain rfl := ofList?_eq_ok_iff.mp hs
    refine ⟨rfl, fun t ↦ ⟨headProperty?_eq_none_iff, fun p ↦ exists_headProperty?_iff, ?_,
      fun p hp ↦ isSome_strip?_iff hp t⟩⟩
    intro p behind h
    obtain ⟨hfront, hback, hpos, hle⟩ := sliceTo_of_headProperty? h
    have hnamed := s.named p (eq_of_headProperty? h).1
    exact ⟨hnamed.byteSize_identifier.symm, hfront, hback, hpos, hle, exists_headProperty?_append h⟩

/-- Of two properties that begin alike the longer one is found, and a beginning of it is not. -/
theorem headProperty?_exact_sample :
    ofList? keywordLike.properties = .ok keywordLike ∧
      keywordLike.IsLongestAt "OrderIdIsNull".toList ⟨"orderId".toList, .boxedNumber⟩ ∧
      keywordLike.headProperty? "Ord".toList = none := by
  have hlist : ofList? keywordLike.properties = .ok keywordLike := by rfl
  obtain ⟨-, hfound⟩ := (headProperty?_exact keywordLike.properties).2 keywordLike hlist
  refine ⟨hlist, ((hfound "OrderIdIsNull".toList).2.1 _).mp ⟨"IsNull".toList, by decide⟩, ?_⟩
  exact (hfound "Ord".toList).1.mpr (by decide)

end Schema

end QueryNames
