import QueryNames.Proofs.BrokenSubject

/-!
# The beginnings of a valid name

Every beginning of a valid name gives a reading, unless an identifier that breaks off is taken for
words of the grammar. In front of the criteria this can happen only where `By` stands in the
property of the subject, or in a verb that another verb begins.
-/

namespace QueryNames.Grammar

open Text

variable {g : Grammar} {s : Schema} {t u x verb rest behind : Text} {subject : Subject}
  {r : Reading}

/-- The text behind the `By` in front of the criteria, if the subject of a name ends with it. -/
def criteriaText? (g : Grammar) (s : Schema) (t : Text) : Option Text :=
  (Keyword.readLongest? id g.verbs t).bind fun m ↦
    match (Subject.read s m.2).next with
    | .stop _ => none
    | .resume behind => some behind

/-- Every beginning of a text gives a reading. -/
def ReadsBeginnings (g : Grammar) (s : Schema) (t : Text) : Prop :=
  ∀ u, u <+: t → ∃ r, g.read s u = .ok r

/-- What stands in front of the criteria may break off anywhere. If another verb begins the verb,
what `By` introduces in the rest of it can be read as criteria, and so can what `By` introduces in a
beginning of the property that is asked for. -/
structure HeadCanBreakOff (g : Grammar) (s : Schema) (verb : Text) (subject : Subject) : Prop where
  verb : ∀ w x, w ++ x <+: verb → Keyword.readLongest? id g.verbs (w ++ x) = some (w, x) →
    ∀ z ∈ Subject.introduced? s (Subject.behindFront x), Predicate.IsSound s z
  property : ∀ p ∈ subject.property, ∀ y, y <+: p.identifier → ∀ z ∈ Subject.introduced? s y,
    Predicate.IsSound s z

/-- Where no verb begins another and `By` is no part of the property that is asked for, what stands
in front of the criteria may break off anywhere. -/
theorem headCanBreakOff_of_isPrefixFree (hg : g.IsPrefixFree) (hverb : verb ∈ g.verbs)
    (hby : ∀ p ∈ subject.property, ¬Word.introducer <:+: p.identifier) :
    g.HeadCanBreakOff s verb subject := by
  refine ⟨fun w x hx hread z hz ↦ ?_, fun p hp y hy z hz ↦ ?_⟩
  · have hw : w ∈ g.verbs := (of_longest? hread).1
    obtain rfl := hg w hw verb hverb ((List.prefix_append w x).trans hx)
    have hnil : x = [] := by
      have hle := hx.length_le
      rw [List.length_append] at hle
      exact List.eq_nil_of_length_eq_zero (by omega)
    simp [hnil] at hz
  · rw [Subject.introduced?_eq_none_of_lacks fun hin ↦ hby p hp (hin.trans hy.isInfix)] at hz
    cases hz

private theorem readLongest?_of_isPrefix
    (h : Keyword.readLongest? id g.verbs t = some (verb, rest)) (hx : x <+: rest) (hne : x ≠ []) :
    Keyword.readLongest? id g.verbs (verb ++ x) = some (verb, x) ∨
      Keyword.readLongest? id g.verbs (verb ++ x) = some (verb ++ x, []) := by
  obtain ⟨hverb, hread⟩ := of_longest? h
  obtain ⟨y, rfl⟩ := hx
  obtain ⟨rfl, hseam⟩ := Keyword.read?_eq_some_iff.mp hread
  rw [isSeam_congr _ (List.head?_append_of_ne_nil x hne)] at hseam
  have hself : Keyword.read? verb (verb ++ x) = some x := Keyword.read?_eq_some_iff.mpr ⟨rfl, hseam⟩
  cases hcut : Keyword.readLongest? id g.verbs (verb ++ x) with
  | none =>
    have hnone := Keyword.readLongest?_eq_none_iff.mp hcut verb hverb
    rw [id, hself] at hnone
    cases hnone
  | some m =>
    obtain ⟨w, z⟩ := m
    obtain ⟨hw, hreadw⟩ := of_longest? hcut
    obtain ⟨heq, hseamw⟩ := Keyword.read?_eq_some_iff.mp hreadw
    by_cases hz : z = []
    · right
      rw [hz, List.append_nil] at heq
      rw [hz, show verb ++ x = w from heq]
    · left
      -- the verb that is read in the beginning is read in the whole name too
      have hlong : Keyword.read? w (verb ++ (x ++ y)) = some (z ++ y) := by
        refine Keyword.read?_eq_some_iff.mpr ⟨?_, ?_⟩
        · rw [← List.append_assoc, show verb ++ x = w ++ z from heq, List.append_assoc]
        · rwa [isSeam_congr _ (List.head?_append_of_ne_nil z hz)]
      have hle : w.length ≤ verb.length := size_le_of_longest? h hw hlong
      have hge : verb.length ≤ w.length := size_le_of_longest? hcut hverb hself
      obtain ⟨rfl, rfl⟩ := List.append_inj heq (Nat.le_antisymm hge hle)
      rfl

private theorem exists_readBehind_iff {source : Text}
    (h : (Subject.read s rest).next = .resume behind) :
    (∃ r, g.readBehind s source verb rest = .ok r) ↔ Predicate.IsSound s behind := by
  rw [← Predicate.exists_read_iff_isSound]
  cases hp : Predicate.read s behind with
  | error fault =>
    rw [readBehind_of_error h hp]
    simp only [reduceCtorEq, exists_false]
  | ok p =>
    refine iff_of_true ?_ ⟨p, rfl⟩
    cases hn : p.next with
    | stop edge => exact ⟨_, readBehind_of_criteria h hp hn⟩
    | resume tail => exact ⟨_, readBehind_of_closing h hp hn⟩

private theorem exists_read_of_verb_iff (hall : u.all isNameChar = true)
    (h : Keyword.readLongest? id g.verbs u = some (verb, x)) :
    (∃ r, g.read s u = .ok r) ↔
      ∀ z ∈ Subject.introduced? s (Subject.behindFront x), Predicate.IsSound s z := by
  rw [read_of_verb hall h]
  cases hn : (Subject.read s x).next with
  | stop edge =>
    refine iff_of_true ⟨_, readBehind_of_stop hn⟩ fun z hz ↦ ?_
    rw [Subject.next_read, Subject.nextAt_eq_resume_iff.mpr hz] at hn
    cases hn
  | resume z =>
    rw [exists_readBehind_iff hn]
    rw [Subject.next_read, Subject.nextAt_eq_resume_iff] at hn
    simp only [hn, Option.mem_def, Option.some.injEq, forall_eq']

section Cut

variable (hall : t.all isNameChar = true)
  (h : Keyword.readLongest? id g.verbs t = some (verb, rest))

include hall

private theorem all_isNameChar_of_isPrefix (hu : u <+: t) : u.all isNameChar = true :=
  List.all_eq_true.mpr fun c hc ↦ List.all_eq_true.mp hall c (hu.subset hc)

include h

private theorem readsBeginnings_of_isSound (hx : x <+: rest)
    (hverb : ∀ w y, w ++ y <+: verb → Keyword.readLongest? id g.verbs (w ++ y) = some (w, y) →
      ∀ z ∈ Subject.introduced? s (Subject.behindFront y), Predicate.IsSound s z)
    (hrest : ∀ y, y <+: x → ∀ z ∈ Subject.introduced? s (Subject.behindFront y),
      Predicate.IsSound s z) : g.ReadsBeginnings s (verb ++ x) := by
  have ht : t = verb ++ rest := Keyword.eq_of_readLongest? h
  intro u hu
  have hname := all_isNameChar_of_isPrefix hall
    (hu.trans (ht ▸ (List.prefix_append_right_inj verb).mpr hx))
  rcases prefix_append_cases hu with hin | ⟨y, hne, rfl, hy⟩
  · cases hcut : Keyword.readLongest? id g.verbs u with
    | none => exact ⟨_, read_of_verb_eq_none hname hcut⟩
    | some m =>
      obtain ⟨w, y⟩ := m
      obtain rfl : u = w ++ y := Keyword.eq_of_readLongest? hcut
      exact (exists_read_of_verb_iff hname hcut).mpr (hverb w y hin hcut)
  · rcases readLongest?_of_isPrefix h (hy.trans hx) hne with hcut | hcut
    · exact (exists_read_of_verb_iff hname hcut).mpr (hrest y hy)
    · exact (exists_read_of_verb_iff hname hcut).mpr (by simp)

private theorem isSound_of_readsBeginnings (hlong : ∀ w ∈ g.verbs, w <+: t → w <+: verb)
    (hx : x <+: rest) (hread : g.ReadsBeginnings s (verb ++ x)) :
    (∀ w y, w ++ y <+: verb → Keyword.readLongest? id g.verbs (w ++ y) = some (w, y) →
      ∀ z ∈ Subject.introduced? s (Subject.behindFront y), Predicate.IsSound s z) ∧
      ∀ y, y <+: x → ∀ z ∈ Subject.introduced? s (Subject.behindFront y),
        Predicate.IsSound s z := by
  have ht : t = verb ++ rest := Keyword.eq_of_readLongest? h
  refine ⟨fun w y hy hcut ↦ ?_, fun y hy ↦ ?_⟩
  · have hname := all_isNameChar_of_isPrefix hall (hy.trans (ht ▸ List.prefix_append verb rest))
    exact (exists_read_of_verb_iff hname hcut).mp (hread _ (hy.trans (List.prefix_append verb x)))
  · by_cases hne : y = []
    · simp [hne]
    have hu : verb ++ y <+: t := ht ▸ (List.prefix_append_right_inj verb).mpr (hy.trans hx)
    rcases readLongest?_of_isPrefix h (hy.trans hx) hne with hcut | hcut
    · exact (exists_read_of_verb_iff (all_isNameChar_of_isPrefix hall hu) hcut).mp
        (hread _ ((List.prefix_append_right_inj verb).mpr hy))
    · -- a longer verb that ends there begins the name as well
      have hle := (hlong _ (of_longest? hcut).1 hu).length_le
      rw [List.length_append] at hle
      exact absurd (List.eq_nil_of_length_eq_zero (by omega)) hne

end Cut

/-- Over any grammar every beginning of a valid name gives a reading if what stands in front of its
criteria may break off anywhere and the criteria may too; for the beginnings in front of the
criteria the former is enough. Unless a longer verb than its own begins the name, nothing less will
do. -/
theorem readsBeginnings_of_isValid (h : g.read s t = .ok r) (hv : r.isValid = true) :
    ∃ verb head behind, r.query.verb = some verb ∧ t = head ++ behind ∧
      g.criteriaText? s t = some behind ∧
      (g.HeadCanBreakOff s verb r.query.subject → g.ReadsBeginnings s head) ∧
      (g.HeadCanBreakOff s verb r.query.subject → Predicate.CanBreakOff s behind →
        g.ReadsBeginnings s t) ∧
      ((∀ w ∈ g.verbs, w <+: t → w <+: verb) →
        (g.ReadsBeginnings s head → g.HeadCanBreakOff s verb r.query.subject) ∧
        (g.ReadsBeginnings s t → Predicate.CanBreakOff s behind)) := by
  obtain ⟨verb, rest, behind, hr⟩ := exists_isReadAs h hv
  obtain ⟨number, b, rest', hsubject⟩ := hr.subject
  obtain ⟨front, hrest, hsound⟩ := hsubject.exists_forall_prefix_isSound_iff
  have hall := all_isNameChar_of_read h
  have ht : t = verb ++ rest := Keyword.eq_of_readLongest? hr.readVerb
  have hcriteria := Predicate.forall_prefix_isSound_iff
    (fun x hx he ↦ Predicate.defect?_nil_ne_none (he ▸ hr.isUnderstood.joined x hx))
    hr.isUnderstood.last_ne_nil
  have hsplit : rest = front ++ r.query.subject.rear [] ++ behind := by
    rw [hrest, List.append_assoc, ← Subject.rear_append, List.nil_append]
  have hhead : front ++ r.query.subject.rear [] <+: rest := ⟨behind, hsplit.symm⟩
  refine ⟨verb, verb ++ (front ++ r.query.subject.rear []), behind, hr.verb, ?_, ?_,
    fun hbreak ↦ ?_, fun hbreak hbehind ↦ ?_, fun hlong ↦ ⟨fun hread ↦ ?_, fun hread ↦ ?_⟩⟩
  · rw [ht, hsplit]
    exact (List.append_assoc _ _ _).symm
  · rw [criteriaText?, hr.readVerb, Option.bind_some]
    simp only [hsubject.next_read_eq]
  · refine readsBeginnings_of_isSound hall hr.readVerb hhead hbreak.verb ?_
    refine (hsound [] List.nil_prefix).mpr ⟨hbreak.property, fun u hu ↦ ?_⟩
    exact List.prefix_nil.mp hu ▸ Predicate.isSound_nil s
  · rw [ht]
    refine readsBeginnings_of_isSound hall hr.readVerb List.prefix_rfl hbreak.verb ?_
    rw [hrest]
    exact (hsound behind List.prefix_rfl).mpr ⟨hbreak.property, hcriteria.mpr hbehind⟩
  · obtain ⟨hverb, hfront⟩ := isSound_of_readsBeginnings hall hr.readVerb hlong hhead hread
    exact ⟨hverb, ((hsound [] List.nil_prefix).mp hfront).1⟩
  · rw [ht] at hread
    have hname := (isSound_of_readsBeginnings hall hr.readVerb hlong List.prefix_rfl hread).2
    rw [hrest] at hname
    exact hcriteria.mp ((hsound behind List.prefix_rfl).mp hname).2

/-- The beginnings of a name that asks for a property, with a marker, a conjunction and a sort key,
give readings. -/
theorem readsBeginnings_of_isValid_sample :
    ∃ r, standard.read .sample "findTop10DateByTextIsIgnoreCaseLikeOrDateOrderByTextDesc".toList =
        .ok r ∧ r.isValid = true ∧
      standard.ReadsBeginnings .sample
        "findTop10DateByTextIsIgnoreCaseLikeOrDateOrderByTextDesc".toList := by
  have key : (standard.read .sample
        "findTop10DateByTextIsIgnoreCaseLikeOrDateOrderByTextDesc".toList).toOption.any (fun r ↦
          r.isValid && r.query.verb == some "find".toList &&
            r.query.subject.property.all fun p ↦ !decide (Word.introducer <:+: p.identifier)) =
        true ∧
      standard.criteriaText? .sample
        "findTop10DateByTextIsIgnoreCaseLikeOrDateOrderByTextDesc".toList =
          some "TextIsIgnoreCaseLikeOrDateOrderByTextDesc".toList ∧
      Predicate.CanBreakOff .sample "TextIsIgnoreCaseLikeOrDateOrderByTextDesc".toList := by
    decide +kernel
  obtain ⟨hany, hcriteria, hbreak⟩ := key
  cases hread : standard.read .sample
      "findTop10DateByTextIsIgnoreCaseLikeOrDateOrderByTextDesc".toList with
  | error fault =>
    rw [hread] at hany
    cases hany
  | ok r =>
    rw [hread, Except.toOption, Option.any_some] at hany
    simp only [Bool.and_eq_true, beq_iff_eq] at hany
    obtain ⟨⟨hvalid, hfind⟩, hby⟩ := hany
    obtain ⟨verb, head, behind, hverb, -, hbehind, -, hall, -⟩ :=
      readsBeginnings_of_isValid hread hvalid
    obtain rfl := Option.some.inj (hfind.symm.trans hverb)
    obtain rfl := Option.some.inj (hcriteria.symm.trans hbehind)
    refine ⟨r, rfl, hvalid,
      hall (headCanBreakOff_of_isPrefixFree (by decide) (by decide) fun p hp ↦ ?_) hbreak⟩
    rw [show r.query.subject.property = some p from hp, Option.all_some] at hby
    simpa using hby

/-- The identifier of a property that breaks off may be a conjunction, with nothing in front. -/
theorem exists_prefix_not_read :
    ∃ r, standard.read .keywordLike "findByOrder".toList = .ok r ∧ r.isValid = true ∧
      "findByOr".toList <+: "findByOrder".toList ∧
      standard.read .keywordLike "findByOr".toList = .error (.emptyBranch .or) := by
  have key : (standard.read .keywordLike "findByOrder".toList).toOption.any Reading.isValid = true ∧
      standard.read .keywordLike "findByOr".toList = .error (.emptyBranch .or) := by
    decide +kernel
  cases hread : standard.read .keywordLike "findByOrder".toList with
  | error fault =>
    rw [hread] at key
    cases key.1
  | ok r =>
    rw [hread, Except.toOption, Option.any_some] at key
    exact ⟨r, rfl, key.1, by decide, key.2⟩

end QueryNames.Grammar
