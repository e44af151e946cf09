import QueryNames.Proofs.Accounting
import QueryNames.Proofs.Legible

/-!
# Reading the canonical form

The canonical form of a valid name moves the markers to the end of their criteria and writes the
limit anew, so a longer word than the meant one may come to stand somewhere. It is read back as the
same query exactly when it is legible. What the valid name itself says about its words already makes
sure that they can stand next to each other in the canonical form too.
-/

namespace QueryNames

open Text

namespace Subject

variable {s : Schema} {t x behind b rest : Text} {subject : Subject} {number : Option Text}
  {w : LimitWord}

/-- Where the word for different results is not read, it does not stand at the head. -/
theorem readDistinct_eq_false (h : readDistinct t = (false, b)) :
    b = t ∧ headWord t ≠ Word.distinct := by
  rw [readDistinct] at h
  cases hr : Keyword.read? Word.distinct t with
  | some behind =>
    rw [hr] at h
    cases h
  | none =>
    rw [hr] at h
    exact ⟨(Prod.mk.inj h).2.symm, (Keyword.read?_eq_none_iff (by decide)).mp hr⟩

/-- Where no limit is read, no limit word stands at the head. -/
theorem readLimit_eq_none (h : readLimit t = (none, rest)) :
    rest = t ∧ ∀ w : LimitWord, headWord t ≠ w.word := by
  rw [readLimit] at h
  cases hr : Keyword.readLongest? LimitWord.word LimitWord.all t with
  | some m =>
    rw [hr] at h
    cases h
  | none =>
    rw [hr] at h
    refine ⟨(Prod.mk.inj h).2.symm, fun w ↦ ?_⟩
    have hnone := Keyword.readLongest?_eq_none_iff.mp hr w (LimitWord.mem_all w)
    exact (Keyword.read?_eq_none_iff w.isCapitalWord_word).mp hnone

/-- Behind a limit stands no digit. -/
theorem readLimit_eq_some {ds : Text} (h : readLimit t = (some ds, rest)) :
    ∀ c ∈ rest.head?, c.isDigit = false := by
  rw [readLimit] at h
  cases hr : Keyword.readLongest? LimitWord.word LimitWord.all t with
  | none =>
    rw [hr] at h
    cases h
  | some m =>
    rw [hr] at h
    intro c hc
    rw [← (Prod.mk.inj h).2, behindDigits] at hc
    have hnot := List.head?_dropWhile_not Char.isDigit m.2
    rw [hc] at hnot
    simpa using hnot

/-- The rear of a subject has the same word at its head whatever the criteria are. -/
theorem headWord_rear (hmem : ∀ p ∈ subject.property, p ∈ s.properties) (hx : Opens x)
    (hbehind : Opens behind) : headWord (subject.rear x) = headWord (subject.rear behind) := by
  rw [rear, rear]
  cases hp : subject.property with
  | none =>
    have hne : Word.introducer ≠ [] := by decide
    exact (headWord_append hne hx).trans (headWord_append hne hbehind).symm
  | some p =>
    have hne : p.identifier ≠ [] := (s.named p (hmem p hp)).identifier_ne_nil
    rw [Option.map_some, Option.getD_some, headWord_append hne (Word.opens_introducer_append x),
      headWord_append hne (Word.opens_introducer_append behind)]

/-- The rear of a subject has the same character at its head whatever the criteria are. -/
theorem head?_rear (x behind : Text) (hmem : ∀ p ∈ subject.property, p ∈ s.properties) :
    (subject.rear x).head? = (subject.rear behind).head? := by
  rw [rear, rear]
  cases hp : subject.property with
  | none => rfl
  | some p =>
    have hne : p.identifier ≠ [] := (s.named p (hmem p hp)).identifier_ne_nil
    rw [Option.map_some, Option.getD_some, List.head?_append_of_ne_nil _ hne,
      List.head?_append_of_ne_nil _ hne]

/-- The rear of a subject opens. -/
theorem opens_rear (hmem : ∀ p ∈ subject.property, p ∈ s.properties) :
    Opens (subject.rear x) := by
  rw [rear]
  cases hp : subject.property with
  | none => exact Word.opens_introducer_append x
  | some p =>
    exact (opens_append_of_ne_nil (s.named p (hmem p hp)).identifier_ne_nil).mpr p.opens_identifier

namespace IsRead

private theorem number_eq_none (h : IsRead s t subject behind number b rest)
    (hl : subject.limit = none) : number = none := by
  have hlimit := h.limit
  rw [hl] at hlimit
  cases number with
  | none => rfl
  | some ds => cases hlimit

/-- What may stand behind the words of a subject does not depend on the criteria. -/
theorem admits (h : IsRead s t subject behind number b rest) (hx : Opens x)
    (hbehind : Opens behind) : subject.Admits (subject.rear x) := by
  obtain ⟨hmem, hrest⟩ := h.rest_eq
  refine ⟨opens_rear hmem, fun hd hl ↦ ?_, fun hl w ↦ ?_, fun hl ↦ ?_⟩
  · have hnumber := h.digits
    rw [h.number_eq_none hl] at hnumber
    have hdistinct := h.distinct
    rw [hd] at hdistinct
    obtain ⟨rfl, hhead⟩ := readDistinct_eq_false hdistinct
    rw [headWord_rear hmem hx hbehind, ← hrest, (readLimit_eq_none hnumber).1]
    exact hhead
  · have hnumber := h.digits
    rw [h.number_eq_none hl] at hnumber
    obtain ⟨rfl, hhead⟩ := readLimit_eq_none hnumber
    rw [headWord_rear hmem hx hbehind, ← hrest]
    exact hhead w
  · cases hn : number with
    | none =>
      have hlimit := h.limit
      rw [hn] at hlimit
      cases hs : subject.limit with
      | none => exact absurd hs hl
      | some l =>
        rw [hs] at hlimit
        cases hlimit
    | some ds =>
      have hnumber := h.digits
      rw [hn] at hnumber
      rw [head?_rear x behind hmem, ← hrest]
      exact readLimit_eq_some hnumber

/-- The property of a subject does not begin with `By`. -/
theorem headWord_ne (h : IsRead s t subject behind number b rest) :
    ∀ p ∈ subject.property, headWord p.identifier ≠ Word.introducer := by
  intro p hp
  cases h.property with
  | inl hnone => cases hnone.1.symm.trans hp
  | inr hsome =>
    obtain ⟨q, hq, hread, -⟩ := hsome
    obtain ⟨hmem, hrest⟩ := h.rest_eq
    have hne : p.identifier ≠ [] := (s.named p (hmem p hp)).identifier_ne_nil
    rw [hrest, rear, show subject.property = some p from hp, Option.map_some, Option.getD_some,
      Keyword.read?_eq_none_iff Word.isCapitalWord_introducer,
      headWord_append hne (Word.opens_introducer_append behind)] at hread
    exact hread

/-- No identifier reaches beyond the property of a subject. -/
theorem fits (h : IsRead s t subject behind number b rest) :
    ∀ p ∈ subject.property, s.Fits p.identifier (Word.introducer ++ behind) := by
  intro p hp
  cases h.property with
  | inl hnone => cases hnone.1.symm.trans hp
  | inr hsome =>
    obtain ⟨q, hq, -, hread⟩ := hsome
    obtain rfl : q = p := Option.some.inj (hq.symm.trans hp)
    simp only [readProperty?, Option.bind_eq_some_iff, Option.map_eq_some_iff] at hread
    obtain ⟨m, hm, y, hy, heq⟩ := hread
    obtain ⟨hq', rfl⟩ := Prod.mk.inj heq
    obtain ⟨-, hrest, hmax⟩ := Schema.headProperty?_eq_some_iff.mp hm
    rw [hq'] at hrest hmax
    rw [(Keyword.read?_eq_some_iff.mp hy).1] at hrest
    rw [hrest] at hmax
    exact hmax

/-- The criteria open. -/
theorem opens_behind (h : IsRead s t subject behind number b rest) : Opens behind := by
  have hby := endsInLetter_of_isCapitalWord Word.isCapitalWord_introducer
  cases h.property with
  | inl hnone => exact ((Keyword.read?_eq_some_iff_opens hby).mp hnone.2).2
  | inr hsome =>
    obtain ⟨p, -, -, hread⟩ := hsome
    simp only [readProperty?, Option.bind_eq_some_iff, Option.map_eq_some_iff] at hread
    obtain ⟨m, -, y, hy, heq⟩ := hread
    rw [← (Prod.mk.inj heq).2]
    exact ((Keyword.read?_eq_some_iff_opens hby).mp hy).2

/-- A written subject is read with what stands behind it. -/
theorem behind_eq (h : IsRead s (subject.front w ++ subject.rear x) subject behind number b rest)
    (ha : subject.Admits (subject.rear x)) : behind = x := by
  have hdistinct := (readDistinct_append (w := w) ha).symm.trans h.distinct
  have hdigits := h.digits
  rw [← (Prod.mk.inj hdistinct).2, readLimit_append ha] at hdigits
  have hrear := (Prod.mk.inj hdigits).2.trans h.rest_eq.2
  rw [rear, rear] at hrear
  exact (List.append_cancel_left (List.append_cancel_left hrear)).symm

/-- A verb that ends where a subject begins also ends where the subject is written anew. -/
theorem isSeam_front (h : IsRead s t subject behind number b rest) {v : Option Char}
    (hv : isSeam v t = true) : isSeam v (subject.front w ++ subject.rear x) = true := by
  obtain ⟨hmem, hrest⟩ := h.rest_eq
  cases hd : subject.distinct with
  | true =>
    rw [front, hd]
    exact isSeam_cons_of_isUpper (c := 'D') _ rfl
  | false =>
    cases hl : subject.limit with
    | some l =>
      rw [front, hd, hl]
      cases w with
      | top => exact isSeam_cons_of_isUpper (c := 'T') _ rfl
      | first => exact isSeam_cons_of_isUpper (c := 'F') _ rfl
    | none =>
      -- Nothing stands in front of the rear, so the text itself begins with it.
      have hdistinct := h.distinct
      have hdigits := h.digits
      rw [hd] at hdistinct
      rw [h.number_eq_none hl] at hdigits
      have hfront : subject.front w = [] := by
        rw [front, hd, hl]
        rfl
      rw [(readDistinct_eq_false hdistinct).1] at hdigits
      rw [← (readLimit_eq_none hdigits).1, hrest] at hv
      rw [hfront, List.nil_append, isSeam_congr v (head?_rear x behind hmem)]
      exact hv

end IsRead

end Subject

namespace Grammar

variable {g : Grammar} {s : Schema} {t : Text} {q : Query} {verb rest behind : Text} {r : Reading}

/-- The canonical form of a valid name is the name of its query. -/
theorem canonical_eq (h : g.IsReadAs s t r.query verb rest behind) (hv : r.isValid = true) :
    r.canonical = r.query.text .top := by
  have hd : r.defects = [] := List.isEmpty_iff.mp hv
  rw [Reading.canonical, h.verb, hd]
  simp only [List.not_mem_nil, if_false, List.append_nil]

/-- The words of a query that a valid name says can stand next to each other in its canonical
form. -/
theorem IsReadAs.isJoined (h : g.IsReadAs s t q verb rest behind) (w : LimitWord) :
    q.IsJoined g s w := by
  obtain ⟨number, b, rest', hsubject⟩ := h.subject
  have hopen := h.isComplete.opens_behindIntroducer
  refine ⟨fun v hv ↦ ?_, hsubject.admits hopen hsubject.opens_behind, hsubject.headWord_ne,
    h.readClosing⟩
  obtain rfl : verb = v := Option.some.inj (h.verb.symm.trans hv)
  rw [Subject.text_append_introducer]
  exact hsubject.isSeam_front (Keyword.read?_eq_some_iff.mp (of_longest? h.readVerb).2).2

/-- A criterion is as long as its text. -/
theorem IsReadAs.length_text (h : g.IsReadAs s t q verb rest behind) :
    ∀ f ∈ (Predicate.chain s behind).branchTexts.flatten,
      (Criterion.ofText s f).text.length = f.length := by
  intro f hf
  obtain ⟨p, -, before, after, hp, -, hparts, heq⟩ := h.isSpelled f hf
  have hlen := congrArg List.length hparts
  rw [List.length_append, List.length_append] at hlen
  rw [Criterion.text, hp]
  simp only [List.length_append]
  rw [congrArg List.length heq, List.length_append, List.length_append]
  omega

/-- The criteria are written anew one by one. -/
theorem IsReadAs.map_text_eq (h : g.IsReadAs s t q verb rest behind) :
    q.predicate.map (List.map Criterion.text) =
      (Predicate.chain s behind).branchTexts.map
        (List.map fun f ↦ (Criterion.ofText s f).text) := by
  rw [h.predicate_eq, List.map_map]
  apply List.map_congr_left
  intro branch _
  exact List.map_map

/-- A valid name that is the name of the query it says is legible. -/
theorem IsReadAs.isLegible {w : LimitWord} (h : g.IsReadAs s (q.text w) q verb rest behind)
    (hj : q.IsJoined g s w) : q.IsLegible g s w := by
  obtain ⟨number, b, rest', hsubject⟩ := h.subject
  have hrest : rest = q.subject.front w ++ q.subject.rear q.behindIntroducer := by
    have heq := (Keyword.eq_of_readLongest? h.readVerb).symm.trans (q.text_eq h.verb w)
    rw [Subject.text_append_introducer] at heq
    exact List.append_cancel_left heq
  rw [hrest] at hsubject
  obtain rfl : behind = q.behindIntroducer := hsubject.behind_eq hj.subject
  have hmap := h.map_text_eq
  have htexts : ∀ f ∈ (Predicate.chain s q.behindIntroducer).branchTexts.flatten,
      (Criterion.ofText s f).text = f := by
    refine Predicate.eq_of_joinBranches_map_eq h.length_text ?_
    rw [← Predicate.Chain.branchTexts, ← hmap, ← Predicate.text_eq_joinBranches]
    exact List.append_cancel_right h.behind_eq
  refine ⟨fun v hv hread ↦ ?_, hsubject.fits, fun c hc ↦ ?_, ?_, h.count_orderBy⟩
  · obtain ⟨d, hd⟩ := Option.isSome_iff_exists.mp hread
    rw [h.verb, Option.getD_some]
    exact size_le_of_longest? h.readVerb hv hd
  · obtain ⟨f, hf, rfl⟩ := h.exists_fragment hc
    rw [htexts f hf]
  · rw [hmap, Predicate.map_map_eq_self htexts, ← h.tail]
    exact Predicate.fits_chain rfl

/-- The canonical form of a valid name is read back as the same query exactly when it is legible. -/
theorem read_canonical_iff (h : g.read s t = .ok r) (hv : r.isValid = true) :
    (∃ r', g.read s r.canonical = .ok r' ∧ r'.isValid = true ∧ r'.query = r.query ∧
      r'.canonical = r.canonical) ↔ r.query.IsLegible g s .top := by
  obtain ⟨verb, rest, behind, hr⟩ := exists_isReadAs h hv
  have hcanonical := canonical_eq hr hv
  have hjoined := hr.isJoined .top
  rw [hcanonical]
  constructor
  · rintro ⟨r', hread, hvalid, hquery, -⟩
    obtain ⟨verb', rest', behind', hr'⟩ := exists_isReadAs hread hvalid
    rw [hquery] at hr'
    exact hr'.isLegible hjoined
  · intro hlegible
    obtain ⟨edge, hread⟩ := read_text_of_isLegible hr.isComplete hjoined hlegible
    refine ⟨_, hread, rfl, rfl, ?_⟩
    rw [Reading.canonical, hr.verb]
    simp only [List.not_mem_nil, if_false, List.append_nil]

/-- The name of a limit with leading zeros is read back from its canonical form. -/
theorem read_canonical_iff_sample :
    ∃ r r', standard.read .sample "findFirst007ByTextIsIgnoreCaseLikeAndDate".toList = .ok r ∧
      r.isValid = true ∧ standard.read .sample r.canonical = .ok r' ∧ r'.isValid = true ∧
      r'.query = r.query := by
  have key : (standard.read .sample "findFirst007ByTextIsIgnoreCaseLikeAndDate".toList).toOption.any
      (fun r ↦ r.isValid && decide (r.query.IsLegible standard .sample .top)) = true := by
    decide +kernel
  cases hread : standard.read .sample "findFirst007ByTextIsIgnoreCaseLikeAndDate".toList with
  | error fault =>
    rw [hread] at key
    cases key
  | ok r =>
    rw [hread, Except.toOption, Option.any_some, Bool.and_eq_true, decide_eq_true_eq] at key
    obtain ⟨r', hread', hvalid, hquery, -⟩ := (read_canonical_iff hread key.1).mpr key.2
    exact ⟨r, r', rfl, key.1, hread', hvalid, hquery⟩

end Grammar

/-- A schema in which the identifier of one property is made of those of the others. -/
def Schema.overlapping : Schema :=
  ⟨[⟨"text".toList, .string⟩, ⟨"date".toList, .date⟩, ⟨"textOrDate".toList, .string⟩], by decide,
    by decide⟩

/-- The marker keeps two criteria apart that the canonical form runs together: behind `By` stands
then the identifier of the third property. -/
theorem Grammar.exists_canonical_not_read :
    ∃ r, standard.read .overlapping "findByTextOrIgnoreCaseDate".toList = .ok r ∧
      r.isValid = true ∧ r.canonical = "findByTextOrDateIgnoreCase".toList ∧
      ¬∃ r', standard.read .overlapping r.canonical = .ok r' ∧ r'.isValid = true ∧
        r'.query = r.query ∧ r'.canonical = r.canonical := by
  have key : (standard.read .overlapping "findByTextOrIgnoreCaseDate".toList).toOption.any
      (fun r ↦ r.isValid && r.canonical == "findByTextOrDateIgnoreCase".toList &&
        (standard.read .overlapping r.canonical).toOption.any fun r' ↦ r'.query != r.query) =
      true := by decide +kernel
  cases hread : standard.read .overlapping "findByTextOrIgnoreCaseDate".toList with
  | error fault =>
    rw [hread] at key
    cases key
  | ok r =>
    rw [hread, Except.toOption, Option.any_some, Bool.and_eq_true, Bool.and_eq_true,
      beq_iff_eq] at key
    obtain ⟨⟨hvalid, hcanonical⟩, hdiffers⟩ := key
    refine ⟨r, rfl, hvalid, hcanonical, ?_⟩
    rintro ⟨r', hread', -, hquery, -⟩
    rw [hread', Except.toOption, Option.any_some, hquery, bne_self_eq_false] at hdiffers
    cases hdiffers

end QueryNames
