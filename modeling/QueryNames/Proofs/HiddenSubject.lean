import QueryNames.Proofs.DefectAccount
import QueryNames.Proofs.TypedSubject

/-!
# A property that a longer one hides

What is asked for ends at `By`. The longest identifier is read there, and it is not given back when
`By` does not follow it. So a declared property with `By` behind it is reported as unknown where a
longer identifier reaches into that `By`, such as `OrderBy` in `OrderByText`, and nowhere else.
-/

namespace QueryNames

open Text

/-- A schema with a property that goes on another one with `By`. -/
def Schema.introducing : Schema :=
  ⟨[⟨"order".toList, .other⟩, ⟨"orderBy".toList, .other⟩, ⟨"text".toList, .string⟩], by decide,
    by decide⟩

namespace Subject

variable {s : Schema} {p : Property} {t f : Text}

/-- A longer identifier hides a property at the head of a text: the first `By` stands behind the
property, but none stands behind the longest identifier, which is that of another one. -/
structure Hides (s : Schema) (p : Property) (t : Text) : Prop where
  introducer : ∃ behind, Keyword.splitAtFirst? id [Word.introducer] t =
    some (p.identifier, Word.introducer, behind)
  longer : ∃ q ∈ s.properties, ∃ behind, q ≠ p ∧ p.identifier <+: q.identifier ∧
    s.headProperty? t = some (q, behind) ∧ Keyword.read? Word.introducer behind = none

/-- A text is reported as no property exactly where the first `By` stands behind it and the text
begins neither with `By` nor with a property that has `By` behind it. -/
theorem unknownSubject_mem_defects_read_iff :
    .unknownSubject f ∈ (read s t).defects ↔
      Keyword.read? Word.introducer (behindFront t) = none ∧
        readProperty? s (behindFront t) = none ∧
        ∃ behind, Keyword.splitAtFirst? id [Word.introducer] (behindFront t) =
          some (f, Word.introducer, behind) := by
  have hlimit : ∀ number, .unknownSubject f ∉ limitDefects number := by
    intro number hd
    unfold limitDefects at hd
    split at hd
    · split at hd
      · cases List.mem_singleton.mp hd
      · cases hd
    · cases hd
  simp only [read, behindFront]
  cases Keyword.read? Word.introducer (readLimit (readDistinct t).2).2 with
  | some behind => simp [hlimit]
  | none =>
    cases readProperty? s (readLimit (readDistinct t).2).2 with
    | some m => simp [hlimit]
    | none =>
      cases hsplit : Keyword.splitAtFirst? id [Word.introducer]
          (readLimit (readDistinct t).2).2 with
      | some m =>
        obtain ⟨before, w, behind⟩ := m
        obtain rfl : w = Word.introducer := List.mem_singleton.mp
          (of_longest? (Keyword.readLongest?_of_splitAtFirst? hsplit)).1
        simp [hlimit, eq_comm]
      | none => cases s.headProperty? (readLimit (readDistinct t).2).2 <;> simp [hlimit]

/-- Where a property stands at the head of a text with the first `By` behind it, it is read unless
a longer identifier hides it. -/
theorem readProperty?_eq_none_iff {behind : Text} (hp : p ∈ s.properties)
    (h : Keyword.splitAtFirst? id [Word.introducer] t =
      some (p.identifier, Word.introducer, behind)) :
    readProperty? s t = none ↔ Hides s p t := by
  have ht : t = p.identifier ++ (Word.introducer ++ behind) := by
    rw [Keyword.eq_of_splitAtFirst? h, List.append_assoc, id]
  cases hh : s.headProperty? t with
  | none => exact absurd ⟨_, ht.symm⟩ (Schema.headProperty?_eq_none_iff.mp hh p hp)
  | some m =>
    obtain ⟨q, after⟩ := m
    obtain ⟨hq, htq, hmax⟩ := Schema.headProperty?_eq_some_iff.mp hh
    have hread : readProperty? s t = none ↔ Keyword.read? Word.introducer after = none := by
      simp only [readProperty?, hh, Option.bind_some, Option.map_eq_none_iff]
    rw [hread]
    constructor
    · intro hnone
      refine ⟨⟨behind, h⟩, q, hq, after, ?_, ?_, hh, hnone⟩
      · rintro rfl
        -- behind the property itself `By` can be read, since the search has found it there
        have hby := (of_longest? (Keyword.readLongest?_of_splitAtFirst? h)).2
        rw [htq] at ht
        rw [List.append_cancel_left ht] at hnone
        rw [id, hnone] at hby
        cases hby
      · have hpt : p.identifier <+: t := ⟨_, ht.symm⟩
        exact List.prefix_of_prefix_length_le hpt ⟨after, htq.symm⟩ (hmax p hp hpt)
    · intro hhides
      obtain ⟨q', -, after', -, -, hh', hnone⟩ := hhides.longer
      rw [hh] at hh'
      obtain ⟨rfl, rfl⟩ := Prod.mk.inj (Option.some.inj hh')
      exact hnone

/-- A declared property is reported as none exactly where a longer identifier hides it. -/
theorem unknownSubject_identifier_mem_iff (hp : p ∈ s.properties) :
    .unknownSubject p.identifier ∈ (read s t).defects ↔ Hides s p (behindFront t) := by
  rw [unknownSubject_mem_defects_read_iff]
  constructor
  · rintro ⟨-, hnone, behind, hsplit⟩
    exact (readProperty?_eq_none_iff hp hsplit).mp hnone
  · intro h
    obtain ⟨behind, hsplit⟩ := h.introducer
    refine ⟨?_, (readProperty?_eq_none_iff hp hsplit).mpr h, behind, hsplit⟩
    cases hr : Keyword.read? Word.introducer (behindFront t) with
    | none => rfl
    | some b =>
      have hlongest : Keyword.readLongest? id [Word.introducer] (behindFront t) =
          some (Word.introducer, b) := by
        rw [Keyword.readLongest?_singleton, hr, Option.map_some]
      have hne : behindFront t ≠ [] := by
        intro hnil
        rw [hnil] at hsplit
        cases hsplit
      rw [Keyword.splitAtFirst?_of_readLongest? hne hlongest] at hsplit
      have hnil := (Prod.mk.inj (Option.some.inj hsplit)).1
      exact absurd hnil.symm (s.named p hp).identifier_ne_nil

/-- Where no identifier is the beginning of another, none hides one. -/
theorem not_hides (hs : s.IsPrefixFree) (hp : p ∈ s.properties) : ¬Hides s p t := by
  intro h
  obtain ⟨q, hq, -, hne, hpre, -⟩ := h.longer
  exact hne (hs p hp q hq hpre).symm

end Subject

namespace Grammar

variable {g : Grammar} {s : Schema} {t source verb rest : Text} {r : Reading} {p : Property}

/-- Behind the defects of the subject stand those of the other sections. -/
theorem exists_defects_eq_append (h : g.readBehind s source verb rest = .ok r) :
    ∃ ds, (∀ d ∈ ds, d.kind ≠ .subject) ∧ r.defects = (Subject.read s rest).defects ++ ds := by
  have hcriteria : ∀ {behind : Text} {p : Passage Predicate}, Predicate.read s behind = .ok p →
      ∀ d ∈ p.defects, d.kind ≠ .subject := by
    intro behind p hp d hd
    obtain ⟨-, rfl⟩ := Predicate.eq_passage_of_read hp
    rcases List.mem_append.mp hd with hd | hd
    · rw [Predicate.kind_of_mem_fragments hd]
      decide
    · rw [(Predicate.kind_of_mem_endDefects hd).2]
      decide
  cases readsBehind_of_readBehind h with
  | subject _ => exact ⟨[], List.forall_mem_nil _, (List.append_nil _).symm⟩
  | criteria _ hp _ => exact ⟨_, hcriteria hp, rfl⟩
  | closing _ hp _ =>
    refine ⟨_, fun d hd ↦ ?_, List.append_assoc _ _ _⟩
    rcases List.mem_append.mp hd with hd | hd
    · exact hcriteria hp d hd
    · rcases Closing.kind_of_mem_read hd with hk | hk
      · rw [hk]
        decide
      · rw [hk]
        decide

/-- A declared property is reported as no known subject exactly if it stands behind the verb and the
words in front of a subject, the first `By` stands behind it, and the longest identifier there is
another one without `By` behind it. -/
theorem unknownSubject_mem_defects_iff (h : g.read s t = .ok r) (hp : p ∈ s.properties) :
    .unknownSubject p.identifier ∈ r.defects ↔
      ∃ verb rest, Keyword.readLongest? id g.verbs t = some (verb, rest) ∧
        Subject.Hides s p (Subject.behindFront rest) := by
  have hall := all_isNameChar_of_read h
  cases hr : Keyword.readLongest? id g.verbs t with
  | none =>
    rw [read_of_verb_eq_none hall hr] at h
    obtain rfl := Except.ok.inj h
    simp
  | some m =>
    obtain ⟨verb, rest⟩ := m
    rw [read_of_verb hall hr] at h
    obtain ⟨ds, hds, hdefects⟩ := exists_defects_eq_append h
    have hother : .unknownSubject p.identifier ∉ ds := fun hd ↦ hds _ hd rfl
    have hsubject : .unknownSubject p.identifier ∈ r.defects ↔
        .unknownSubject p.identifier ∈ (Subject.read s rest).defects := by
      rw [hdefects, List.mem_append, or_iff_left hother]
    rw [hsubject, Subject.unknownSubject_identifier_mem_iff hp]
    constructor
    · intro hhides
      exact ⟨verb, rest, rfl, hhides⟩
    · rintro ⟨verb', rest', heq, hhides⟩
      obtain ⟨rfl, rfl⟩ := Prod.mk.inj (Option.some.inj heq)
      exact hhides

private theorem exists_read_introducing :
    ∃ r, standard.read .introducing "findOrderByText".toList = .ok r ∧
      r.defects = [.unknownSubject "Order".toList] :=
  exists_read_of_any (by decide +kernel)

/-- In `findOrderByText` the property `orderBy` hides the property `order`. -/
theorem unknownSubject_mem_defects_iff_sample :
    ∃ r, standard.read .introducing "findOrderByText".toList = .ok r ∧
      ∃ verb rest, Keyword.readLongest? id standard.verbs "findOrderByText".toList =
          some (verb, rest) ∧
        Subject.Hides .introducing ⟨"order".toList, .other⟩ (Subject.behindFront rest) := by
  obtain ⟨r, hread, hdefects⟩ := exists_read_introducing
  have hp : (⟨"order".toList, .other⟩ : Property) ∈ Schema.introducing.properties := by decide
  refine ⟨r, hread, (unknownSubject_mem_defects_iff hread hp).mp ?_⟩
  rw [hdefects]
  exact List.mem_singleton_self _

/-- A declared property is reported as unknown, since the longer `OrderBy` is read in its place. -/
theorem exists_unknownSubject_declared :
    ∃ r, standard.read .introducing "findOrderByText".toList = .ok r ∧
      ∃ p ∈ Schema.introducing.properties, .unknownSubject p.identifier ∈ r.defects := by
  obtain ⟨r, hread, hdefects⟩ := exists_read_introducing
  refine ⟨r, hread, ⟨"order".toList, .other⟩, by decide, ?_⟩
  rw [hdefects]
  exact List.mem_singleton_self _

end Grammar

end QueryNames
