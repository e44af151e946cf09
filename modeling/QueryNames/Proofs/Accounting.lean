import QueryNames.Proofs.ValidName

/-!
# A valid name accounts for its source

Every character of a valid name belongs to a word of the query that is read from it. Nothing is
supposed of the schema here: identifiers may look like words of the grammar, overlap or hold a
marker. What a criterion says is spelled in its text with the marker put in at any place.
-/

namespace QueryNames

open Text

/-- A text spells a limit: no text for no limit, a limit word alone or with digits behind it. -/
inductive Limit.IsSpelled : Option Limit → Text → Prop where
  | absent : IsSpelled none []
  | implicit (w : LimitWord) : IsSpelled (some .implicit) w.word
  | explicit (w : LimitWord) {ds : Text} :
      ds ≠ [] → (∀ c ∈ ds, c.isDigit = true) → 0 < numeralValue ds → numeralValue ds ≤ largest →
        IsSpelled (some (.explicit (numeralValue ds))) (w.word ++ ds)

/-- A text spells a criterion: a declared property and the keyword of the operator, with the marker
put in somewhere. -/
def Criterion.IsSpelled (s : Schema) (c : Criterion) (t : Text) : Prop :=
  ∃ p ∈ s.properties, ∃ before behind : Text,
    c.property = some p ∧ c.residue = [] ∧ before ++ behind = p.identifier ++ c.keyword ∧
      t = before ++ (c.markerWord ++ behind)

namespace Subject

variable {s : Schema} {t behind b rest : Text} {subject : Subject} {number : Option Text}

/-- The digits behind a limit word spell the limit that they give. -/
theorem isSpelled_of_ofDigits? (w : LimitWord) {ds : Text} {l : Limit}
    (hds : ∀ c ∈ ds, c.isDigit = true) (h : Limit.ofDigits? ds = some l) :
    Limit.IsSpelled (some l) (w.word ++ ds) := by
  simp only [Limit.ofDigits?] at h
  split at h
  · next hnil =>
    rw [hnil, List.append_nil, ← Option.some.inj h]
    exact .implicit w
  · next hne =>
    split at h
    · next hbounds =>
      rw [← Option.some.inj h]
      exact .explicit w hne hds hbounds.1 hbounds.2
    · cases h

/-- What `readLimit` takes from a text spells the limit. -/
theorem exists_isSpelled_of_readLimit {limit : Option Limit} (h : readLimit t = (number, rest))
    (hl : number.map Limit.ofDigits? = limit.map some) :
    ∃ limitText, Limit.IsSpelled limit limitText ∧ t = limitText ++ rest := by
  cases number with
  | none =>
    cases limit with
    | none => exact ⟨[], .absent, (eq_of_readLimit_none h).symm⟩
    | some l => cases hl
  | some ds =>
    cases limit with
    | none => cases hl
    | some l =>
      have hdigits : ∀ c ∈ ds, c.isDigit = true := by
        simp only [readLimit] at h
        split at h
        · rw [← Option.some.inj (Prod.mk.inj h).1]
          exact fun c hc ↦ List.all_eq_true.mp List.all_takeWhile c hc
        · cases (Prod.mk.inj h).1
      obtain ⟨w, hw⟩ := eq_of_readLimit h
      exact ⟨w.word ++ ds, isSpelled_of_ofDigits? w hdigits (Option.some.inj hl), hw⟩

/-- The property of a subject is declared, and `By` stands behind it. -/
theorem IsRead.rest_eq (h : IsRead s t subject behind number b rest) :
    (∀ p ∈ subject.property, p ∈ s.properties) ∧ rest = subject.rear behind := by
  rw [rear]
  cases h.property with
  | inl hnone =>
    rw [hnone.1, (Keyword.read?_eq_some_iff.mp hnone.2).1]
    refine ⟨fun p hp ↦ ?_, rfl⟩
    cases hp
  | inr hsome =>
    obtain ⟨p, hp, -, hread⟩ := hsome
    obtain ⟨hmem, hrest⟩ := eq_of_readProperty? hread
    rw [hp, hrest, List.append_assoc]
    refine ⟨fun q hq ↦ ?_, rfl⟩
    rw [← Option.some.inj hq]
    exact hmem

/-- The parts of a subject without defects and `By` behind it make up the text. -/
theorem IsRead.exists_eq (h : IsRead s t subject behind number b rest) :
    ∃ limitText, Limit.IsSpelled subject.limit limitText ∧
      t = (if subject.distinct then Word.distinct else []) ++
        (limitText ++ subject.rear behind) := by
  obtain ⟨limitText, hspelled, hb⟩ := exists_isSpelled_of_readLimit h.digits h.limit
  refine ⟨limitText, hspelled, ?_⟩
  rw [eq_of_readDistinct h.distinct, hb, h.rest_eq.2]

/-- The number of a limit without defects is in bounds. -/
theorem IsRead.isBounded (h : IsRead s t subject behind number b rest) : subject.IsBounded := by
  intro n hn
  have hl := h.limit
  rw [hn] at hl
  cases number with
  | none => cases hl
  | some ds =>
    have hds : Limit.ofDigits? ds = some (.explicit n) := Option.some.inj hl
    simp only [Limit.ofDigits?] at hds
    split at hds
    · cases hds
    · split at hds
      · next hbounds =>
        rw [← Limit.explicit.inj (Option.some.inj hds)]
        exact hbounds
      · cases hds

end Subject

namespace Criterion

variable {s : Schema} {t : Text} {p : Property}

/-- The property of a criterion is read in the text without its marker, and the operator behind the
property. -/
theorem read_of_property (hp : (ofText s t).property = some p) :
    s.headProperty? (CaseMarker.cut t).2 =
        some (p, (ofText s t).keyword ++ (ofText s t).residue) ∧
      Spelling.read? ((ofText s t).keyword ++ (ofText s t).residue) =
        (ofText s t).spelling.map (·, (ofText s t).residue) := by
  cases hh : s.headProperty? (CaseMarker.cut t).2 with
  | none =>
    simp only [ofText, hh] at hp
    cases hp
  | some m =>
    obtain ⟨q, behind⟩ := m
    cases ho : Spelling.read? behind with
    | none =>
      have hof : ofText s t = ⟨some q, none, (CaseMarker.cut t).1, behind⟩ := by
        simp only [ofText, hh, ho]
      rw [hof] at hp ⊢
      obtain rfl : q = p := Option.some.inj hp
      exact ⟨rfl, ho⟩
    | some m =>
      obtain ⟨sp, residue⟩ := m
      have hof : ofText s t = ⟨some q, some sp, (CaseMarker.cut t).1, residue⟩ := by
        simp only [ofText, hh, ho]
      rw [hof] at hp ⊢
      obtain rfl : q = p := Option.some.inj hp
      obtain rfl := Spelling.eq_of_read? ho
      exact ⟨rfl, ho⟩

/-- The marker of a criterion is the one that is cut out of its text. -/
theorem marker_ofText (s : Schema) (t : Text) : (ofText s t).marker = (CaseMarker.cut t).1 := by
  simp only [ofText]
  split
  · rfl
  · split <;> rfl

/-- The text that is left without the marker is the property, the keyword and what could not be
read. -/
theorem cut_of_property_eq_some (hp : (ofText s t).property = some p) :
    p ∈ s.properties ∧ CaseMarker.cut t =
      ((ofText s t).marker, p.identifier ++ ((ofText s t).keyword ++ (ofText s t).residue)) := by
  obtain ⟨hmem, hwords⟩ := Schema.eq_of_headProperty? (read_of_property hp).1
  exact ⟨hmem, Prod.ext (marker_ofText s t).symm hwords⟩

/-- A text that is understood as a criterion spells it. -/
theorem isSpelled_ofText (hp : (ofText s t).property.isSome) (hr : (ofText s t).residue = []) :
    (ofText s t).IsSpelled s t := by
  obtain ⟨p, hp⟩ := Option.isSome_iff_exists.mp hp
  obtain ⟨hmem, hcut⟩ := cut_of_property_eq_some hp
  rw [hr, List.append_nil] at hcut
  cases hm : (ofText s t).marker with
  | none =>
    rw [hm] at hcut
    have hword : (ofText s t).markerWord = [] := by rw [markerWord, hm]; rfl
    refine ⟨p, hmem, p.identifier ++ (ofText s t).keyword, [], hp, hr, List.append_nil _, ?_⟩
    rw [hword, List.append_nil, List.append_nil, CaseMarker.eq_of_cut_none hcut]
  | some m =>
    rw [hm] at hcut
    have hword : (ofText s t).markerWord = m.word := by rw [markerWord, hm]; rfl
    obtain ⟨before, behind, ht, hrest⟩ := CaseMarker.eq_of_cut hcut
    refine ⟨p, hmem, before, behind, hp, hr, hrest.symm, ?_⟩
    rw [hword, ← List.append_assoc]
    exact ht

end Criterion

namespace Grammar

variable {g : Grammar} {s : Schema} {t : Text} {r : Reading}

namespace IsReadAs

variable {q : Query} {verb rest behind : Text}

/-- The criteria are read from their texts one by one. -/
theorem predicate_eq (h : g.IsReadAs s t q verb rest behind) :
    q.predicate = (Predicate.chain s behind).branchTexts.map (List.map (Criterion.ofText s)) := by
  rw [← h.predicate, Predicate.ofChain, if_neg h.isUnderstood.last_ne_nil,
    Predicate.Chain.branchTexts, Predicate.map_branches, Option.map_some]

/-- The text of every criterion spells it. -/
theorem isSpelled (h : g.IsReadAs s t q verb rest behind) :
    ∀ f ∈ (Predicate.chain s behind).branchTexts.flatten, (Criterion.ofText s f).IsSpelled s f := by
  intro f hf
  have hunderstood := Predicate.defect?_eq_none_iff.mp
    (Predicate.Chain.isUnderstood_iff_branchTexts.mp h.isUnderstood f hf)
  exact Criterion.isSpelled_ofText hunderstood.1 hunderstood.2

/-- The criteria and what stands behind them make up the text behind `By`. -/
theorem behind_eq (h : g.IsReadAs s t q verb rest behind) :
    behind = Predicate.joinBranches (Predicate.chain s behind).branchTexts ++ q.closing.text := by
  rw [← h.tail, ← Predicate.Chain.text_eq_joinBranches, Predicate.Chain.text_chain]

/-- Each criterion is read from one of the texts. -/
theorem exists_fragment (h : g.IsReadAs s t q verb rest behind) {c : Criterion}
    (hc : c ∈ q.predicate.criteria) :
    ∃ f ∈ (Predicate.chain s behind).branchTexts.flatten, Criterion.ofText s f = c := by
  rw [Predicate.criteria, h.predicate_eq, ← List.map_flatten] at hc
  exact List.mem_map.mp hc

/-- What a valid name says is complete. -/
theorem isComplete (h : g.IsReadAs s t q verb rest behind) : q.IsComplete g s := by
  obtain ⟨number, b, rest', hsubject⟩ := h.subject
  refine ⟨⟨verb, (of_longest? h.readVerb).1, h.verb⟩, hsubject.isBounded, ?_, ?_, ?_, ?_, h.order⟩
  · exact hsubject.rest_eq.1
  · rw [h.predicate_eq]
    intro hnil
    exact Predicate.branches_ne_nil _ _ (List.map_eq_nil_iff.mp hnil)
  · rw [h.predicate_eq]
    intro branch hbranch
    obtain ⟨texts, htexts, rfl⟩ := List.mem_map.mp hbranch
    exact fun hnil ↦ Predicate.ne_nil_of_mem_branches htexts (List.map_eq_nil_iff.mp hnil)
  · intro c hc
    obtain ⟨f, hf, rfl⟩ := h.exists_fragment hc
    obtain ⟨p, hp, before, after, hcp, hres, -⟩ := h.isSpelled f hf
    exact ⟨⟨p, hp, hcp⟩, hres⟩

end IsReadAs

/-- Every character of a valid name belongs to a word of the query: the name is the verb, the word
for different results, the limit, the property, `By`, the criteria with their conjunctions, the
marker for all of them and the sort keys, one behind the other, and nothing else. -/
theorem source_eq_of_isValid (h : g.read s t = .ok r) (hv : r.isValid = true) :
    ∃ (verb limitText : Text) (fragments : List (List Text)),
      verb ∈ g.verbs ∧ r.query.verb = some verb ∧
      Limit.IsSpelled r.query.subject.limit limitText ∧
      (∀ p, r.query.subject.property = some p → p ∈ s.properties) ∧
      fragments ≠ [] ∧ (∀ branch ∈ fragments, branch ≠ []) ∧
      r.query.predicate = fragments.map (List.map (Criterion.ofText s)) ∧
      (∀ f ∈ fragments.flatten, (Criterion.ofText s f).IsSpelled s f) ∧
      (∀ i ∈ r.query.closing.order, i.IsDeclared g s) ∧
      t = verb ++ ((if r.query.subject.distinct then Word.distinct else []) ++ (limitText ++
        ((r.query.subject.property.map Property.identifier).getD [] ++ (Word.introducer ++
          (Predicate.joinBranches fragments ++ r.query.closing.text))))) := by
  obtain ⟨verb, rest, behind, hr⟩ := exists_isReadAs h hv
  obtain ⟨number, b, rest', hsubject⟩ := hr.subject
  obtain ⟨limitText, hlimit, hrest⟩ := hsubject.exists_eq
  refine ⟨verb, limitText, (Predicate.chain s behind).branchTexts, (of_longest? hr.readVerb).1,
    hr.verb, hlimit, hsubject.rest_eq.1, Predicate.branches_ne_nil _ _,
    fun _ ↦ Predicate.ne_nil_of_mem_branches, hr.predicate_eq, hr.isSpelled, hr.order, ?_⟩
  rw [← hr.behind_eq]
  exact hrest ▸ Keyword.eq_of_readLongest? hr.readVerb

/-- A name with leading zeros and a marker inside a keyword is accounted for. -/
theorem source_eq_of_isValid_sample :
    ∃ (r : Reading) (verb limitText : Text) (fragments : List (List Text)),
      standard.read .sample "findFirst007DateByTextIsIgnoreCaseLikeAndDate".toList = .ok r ∧
      r.isValid = true ∧ Limit.IsSpelled r.query.subject.limit limitText ∧
      r.query.predicate = fragments.map (List.map (Criterion.ofText .sample)) ∧
      "findFirst007DateByTextIsIgnoreCaseLikeAndDate".toList =
        verb ++ ((if r.query.subject.distinct then Word.distinct else []) ++ (limitText ++
          ((r.query.subject.property.map Property.identifier).getD [] ++ (Word.introducer ++
            (Predicate.joinBranches fragments ++ r.query.closing.text))))) := by
  have haccepts : standard.accepts .sample "findFirst007DateByTextIsIgnoreCaseLikeAndDate".toList =
      true := by decide +kernel
  obtain ⟨r, hread, hvalid⟩ := accepts_iff.mp haccepts
  obtain ⟨verb, limitText, fragments, -, -, hlimit, -, -, -, hpredicate, -, -, heq⟩ :=
    source_eq_of_isValid hread hvalid
  exact ⟨r, verb, limitText, fragments, hread, hvalid, hlimit, hpredicate, heq⟩

end Grammar

end QueryNames
