import QueryNames.Proofs.Accounting
import QueryNames.Proofs.BareName

/-!
# A property as the only criterion

A name may hold any words of the grammar inside its property, because the property is read before
the words that could end it are searched for. Two searches do not spare it: the one for a marker
that ignores letter case and the count of order clauses. They alone decide whether a property can be
asked for by its identifier.
-/

namespace QueryNames

open Text

variable {g : Grammar} {s : Schema} {p : Property} {verb : Text} {c : Closing}

/-- At the head of its own identifier a property is read. -/
theorem Schema.headProperty?_identifier (hp : p ∈ s.properties) :
    s.headProperty? p.identifier = some (p, []) :=
  headProperty?_eq_some_iff.mpr ⟨hp, (List.append_nil _).symm, fun _ _ hpre ↦ hpre.length_le⟩

/-- An identifier is one criterion, whatever words it holds. -/
theorem Predicate.chain_identifier (hp : p ∈ s.properties) :
    chain s p.identifier = ⟨[], p.identifier, []⟩ :=
  chain_of_none (splitCriterion_eq_none (Schema.headProperty?_identifier hp) rfl)

/-- An identifier is read as its property alone exactly if no marker is cut out of it. -/
theorem Criterion.ofText_identifier_iff (hp : p ∈ s.properties) :
    ofText s p.identifier = ⟨some p, none, none, []⟩ ↔ p.LacksMarkers := by
  constructor
  · intro h
    have hproperty : (ofText s p.identifier).property = some p := congrArg Criterion.property h
    obtain ⟨-, hcut⟩ := cut_of_property_eq_some hproperty
    refine CaseMarker.lacksMarkers_of_cut ?_
    rw [hcut, h]
  · intro h
    simp only [ofText, CaseMarker.cut_of_lacksMarkers h, Schema.headProperty?_identifier hp,
      Spelling.read?_nil]

namespace Grammar

private theorem understands_identifier_iff (hp : p ∈ s.properties) :
    (∃ c, g.Understands s p.identifier [[⟨some p, none, none, []⟩]] c) ↔
      p.LacksMarkers ∧ Keyword.count Word.orderBy p.identifier ≤ 1 := by
  have hchain := Predicate.chain_identifier hp
  have hne := (s.named p hp).identifier_ne_nil
  have hpredicate : Predicate.ofChain s (Predicate.chain s p.identifier) =
      [[Criterion.ofText s p.identifier]] := by
    rw [hchain, Predicate.ofChain, if_neg hne]
    rfl
  constructor
  · rintro ⟨c, h⟩
    have heq := hpredicate.symm.trans h.predicate
    rw [List.singleton_inj, List.singleton_inj] at heq
    exact ⟨(Criterion.ofText_identifier_iff hp).mp heq, h.count_orderBy⟩
  · rintro ⟨hlacks, hcount⟩
    have heq := (Criterion.ofText_identifier_iff hp).mpr hlacks
    refine ⟨.absent, hcount, ?_, ?_, ?_⟩
    · rw [hchain]
      refine ⟨List.forall_mem_nil _, Predicate.defect?_eq_none_iff.mpr ?_⟩
      rw [heq]
      exact ⟨rfl, rfl⟩
    · rw [hpredicate, heq]
    · rw [hchain]
      exact .absent

/-- A declared property can be asked for by a verb, `By` and its identifier exactly if no marker
stands in the identifier and `OrderBy` has at most one place there. The name is then valid, and its
only criterion compares the property for equality. -/
theorem read_identifier_iff (hg : g.IsPrefixFree) (hv : verb ∈ g.verbs) (hp : p ∈ s.properties) :
    (∃ r, g.read s (verb ++ (Word.introducer ++ p.identifier)) = .ok r ∧ r.isValid = true ∧
        r.query.predicate = [[⟨some p, none, none, []⟩]]) ↔
      p.LacksMarkers ∧ Keyword.count Word.orderBy p.identifier ≤ 1 := by
  rw [← understands_identifier_iff (g := g) hp]
  constructor
  · rintro ⟨r, hread, hvalid, hpredicate⟩
    have hunderstands := (exists_read_bare_iff hg hv p.opens_identifier).mp
      ⟨r, hread, hvalid, hpredicate, rfl⟩
    exact ⟨_, hunderstands.2⟩
  · rintro ⟨c, h⟩
    have hall := (s.named p hp).all_isNameChar
    obtain ⟨r, hread, hvalid, hpredicate, -⟩ :=
      (exists_read_bare_iff hg hv p.opens_identifier).mpr ⟨hall, h⟩
    exact ⟨r, hread, hvalid, hpredicate⟩

end Grammar

/-- A schema whose properties look like words of the grammar: one is a marker, one holds `OrderBy`
twice, and one is made of words that do no harm. -/
def Schema.wordLike : Schema :=
  ⟨[⟨"ignoreCase".toList, .string⟩, ⟨"orderByOrderBy".toList, .other⟩,
    ⟨"andOrByTopOrderByIsNotNull".toList, .other⟩], by decide, by decide⟩

namespace Grammar

/-- A property that is made of other words of the grammar is read back. -/
theorem read_identifier_iff_sample :
    ∃ r, standard.read .wordLike "findByAndOrByTopOrderByIsNotNull".toList = .ok r ∧
      r.isValid = true ∧
      r.query.predicate = [[⟨some ⟨"andOrByTopOrderByIsNotNull".toList, .other⟩, none, none, []⟩]] := by
  have hp : (⟨"andOrByTopOrderByIsNotNull".toList, .other⟩ : Property) ∈
      Schema.wordLike.properties := by decide
  have hv : "find".toList ∈ standard.verbs := by decide
  exact (read_identifier_iff (by decide) hv hp).mpr ⟨by decide +kernel, by decide +kernel⟩

/-- A property whose identifier is a marker cannot be asked for. -/
theorem exists_identifier_not_read :
    ∃ p ∈ Schema.wordLike.properties, ∃ verb ∈ standard.verbs,
      ¬∃ r, standard.read .wordLike (verb ++ (Word.introducer ++ p.identifier)) = .ok r ∧
        r.isValid = true ∧ r.query.predicate = [[⟨some p, none, none, []⟩]] := by
  have key : standard.accepts .wordLike "findByIgnoreCase".toList = false := by decide +kernel
  refine ⟨⟨"ignoreCase".toList, .string⟩, by decide, "find".toList, by decide, ?_⟩
  rintro ⟨r, hread, hvalid, -⟩
  have haccepts : standard.accepts .wordLike "findByIgnoreCase".toList = true :=
    accepts_iff.mpr ⟨r, hread, hvalid⟩
  rw [key] at haccepts
  cases haccepts

/-- A property that holds `OrderBy` twice is taken for two order clauses. -/
example : standard.read .wordLike "findByOrderByOrderBy".toList = .error .repeatedOrder := by
  decide +kernel

end Grammar

end QueryNames
