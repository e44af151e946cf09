import QueryNames.Proofs.BrokenCriteria
import QueryNames.Proofs.Canonical
import QueryNames.Proofs.TypedSubject

/-!
# Subjects that break off

A subject that is cut short stays a subject without `By`, unless `By` stands in its property. Only
then can what is left of it be taken for criteria, so nothing else of a subject has to be looked at.
-/

namespace QueryNames.Subject

open Text

variable {s : Schema} {t x y q z b rest behind : Text} {d : Bool} {subject : Subject}
  {number : Option Text}

/-- What stands behind the `By` that ends a subject, if there is one: `By` itself, `By` behind a
property or, with neither of them, the first `By`. -/
def introduced? (s : Schema) (q : Text) : Option Text :=
  Keyword.read? Word.introducer q <|> (readProperty? s q).map Prod.snd <|>
    (Keyword.splitAtFirst? id [Word.introducer] q).map (·.2.2)

/-- Behind the words in front of a subject the criteria follow where `By` introduces them. -/
theorem nextAt_eq_resume_iff : nextAt s d number q = .resume z ↔ introduced? s q = some z := by
  simp only [nextAt, introduced?]
  cases Keyword.read? Word.introducer q with
  | some behind => simp
  | none =>
    cases readProperty? s q with
    | some m => simp
    | none =>
      cases Keyword.splitAtFirst? id [Word.introducer] q with
      | some m => simp
      | none => cases s.headProperty? q <;> simp

/-- Where `By` stands nowhere, it introduces nothing. -/
theorem introduced?_eq_none_of_lacks (h : ¬Word.introducer <:+: q) : introduced? s q = none := by
  refine Option.eq_none_iff_forall_ne_some.mpr fun z hz ↦ ?_
  have hnext : nextAt s false none q = .resume z := nextAt_eq_resume_iff.mpr hz
  rw [nextAt_of_lacks h] at hnext
  split at hnext <;> cases hnext

/-- A text without characters introduces nothing. -/
@[simp] theorem introduced?_behindFront_nil (s : Schema) : introduced? s (behindFront []) = none :=
  introduced?_eq_none_of_lacks (by decide)

/-- The first letter of `By` is no part of the words in front of a subject, so they are read as
before when the text goes on behind it. -/
theorem behindFront_append (h : 'B' ∈ t) (y : Text) :
    behindFront (t ++ y) = behindFront t ++ y := by
  have hmem : 'B' ∈ (readDistinct t).2 := by
    have heq := eq_of_readDistinct (Prod.eta (readDistinct t)).symm
    rw [heq] at h
    refine (List.mem_append.mp h).resolve_left ?_
    split <;> decide
  rw [behindFront, readDistinct_append_of_mem h, readLimit_append_of_mem hmem]
  rfl

/-- The criteria end the rear of a subject. -/
theorem rear_append (subject : Subject) (u v : Text) :
    subject.rear (u ++ v) = subject.rear u ++ v := by
  simp only [rear, List.append_assoc]

private theorem rear_of_none (hp : subject.property = none) (u : Text) :
    subject.rear u = Word.introducer ++ u := by
  rw [rear, hp]
  rfl

private theorem rear_of_some {p : Property} (hp : subject.property = some p) (u : Text) :
    subject.rear u = p.identifier ++ (Word.introducer ++ u) := by
  rw [rear, hp]
  rfl

section Property

variable (h : IsRead s t subject behind number b rest) {p : Property} (hp : p ∈ subject.property)

include h hp

private theorem IsRead.read?_identifier_append (hy : Opens y) :
    Keyword.read? Word.introducer (p.identifier ++ y) = none := by
  rw [Keyword.read?_eq_none_iff Word.isCapitalWord_introducer,
    headWord_append (s.named p (h.rest_eq.1 p hp)).identifier_ne_nil hy]
  exact h.headWord_ne p hp

private theorem IsRead.readProperty?_identifier_append (hy : y <+: Word.introducer ++ behind) :
    readProperty? s (p.identifier ++ y) = (Keyword.read? Word.introducer y).map (p, ·) := by
  simp only [readProperty?, ((h.fits p hp).of_isPrefix hy).headProperty?_append (h.rest_eq.1 p hp),
    Option.bind_some]

end Property

/-- What stands behind the words in front of a subject. -/
theorem IsRead.behindFront_eq (h : IsRead s t subject behind number b rest) :
    behindFront t = subject.rear behind := by
  rw [behindFront, h.distinct, h.digits]
  exact h.rest_eq.2

/-- The criteria of a subject are introduced however much of them is left. -/
theorem IsRead.introduced?_rear (h : IsRead s t subject behind number b rest) {u : Text}
    (hu : u <+: behind) : introduced? s (subject.rear u) = some u := by
  have hby := Word.read?_introducer_append (h.opens_behind.of_isPrefix hu)
  cases hp : subject.property with
  | none =>
    rw [introduced?, rear_of_none hp, hby]
    rfl
  | some p =>
    have hcriteria : Word.introducer ++ u <+: Word.introducer ++ behind :=
      (List.prefix_append_right_inj _).mpr hu
    rw [introduced?, rear_of_some hp, h.read?_identifier_append hp (Word.opens_introducer_append u),
      h.readProperty?_identifier_append hp hcriteria, hby]
    rfl

/-- The criteria follow a subject that is read without defects. -/
theorem IsRead.next_read_eq (h : IsRead s t subject behind number b rest) :
    (read s t).next = .resume behind := by
  rw [next_read, nextAt_eq_resume_iff, h.behindFront_eq]
  exact h.introduced?_rear List.prefix_rfl

private theorem splitAtFirst?_append_letter
    (h : Keyword.splitAtFirst? id [Word.introducer] q = none) :
    Keyword.splitAtFirst? id [Word.introducer] (q ++ ['B']) = none := by
  have hbars := Word.bars_introducer (x := ['B']) (by decide)
  have hpass : ∀ a c, q = a ++ c → c ≠ [] →
      Keyword.readLongest? id [Word.introducer] (c ++ ['B']) = none := by
    intro a c hac hc
    have hnone := Keyword.splitAtFirst?_eq_none_iff.mp h a c hac hc
    rw [Keyword.readLongest?_singleton, Option.map_eq_none_iff] at hnone ⊢
    rw [Keyword.read?_append_right (by decide) (fun _ ↦ by decide) (hbars.eq hc), hnone,
      Option.map_none]
  have hletter : Keyword.splitAtFirst? id [Word.introducer] ['B'] = none := by decide
  rw [Keyword.splitAtFirst?_append hpass, hletter, Option.map_none]

/-- With the first letter of `By` behind it, a property introduces what it does by itself. -/
theorem IsRead.introduced?_append_letter (h : IsRead s t subject behind number b rest)
    {p : Property} (hp : p ∈ subject.property) (hz : z ∈ introduced? s (p.identifier ++ ['B'])) :
    ∃ x, x ∈ introduced? s p.identifier ∧ z = x ++ ['B'] := by
  have hletter : ['B'] <+: Word.introducer ++ behind := ⟨'y' :: behind, rfl⟩
  have hnil : Keyword.read? Word.introducer [] = none := rfl
  have hno : Keyword.read? Word.introducer ['B'] = none := by decide
  -- neither `By` itself nor `By` behind the property is read there, so the search decides
  have hself := h.read?_identifier_append hp opens_nil
  have hproperty := h.readProperty?_identifier_append hp List.nil_prefix
  rw [List.append_nil] at hself hproperty
  rw [introduced?, hself, hproperty, hnil]
  rw [introduced?, h.read?_identifier_append hp (by decide),
    h.readProperty?_identifier_append hp hletter, hno] at hz
  cases hsplit : Keyword.splitAtFirst? id [Word.introducer] p.identifier with
  | none =>
    rw [splitAtFirst?_append_letter hsplit] at hz
    cases hz
  | some m =>
    obtain ⟨before, w, x⟩ := m
    obtain ⟨hw, hread⟩ := of_longest? (Keyword.readLongest?_of_splitAtFirst? hsplit)
    obtain rfl : w = Word.introducer := List.mem_singleton.mp hw
    have hx : Opens x := ((Keyword.read?_eq_some_iff_opens (by decide)).mp hread).2
    rw [splitAtFirst?_append_right hsplit (hx.append (by decide))] at hz
    exact ⟨x, rfl, (Option.some.inj hz).symm⟩

private theorem mem_of_mem_introduced? (h : z ∈ introduced? s q) : 'B' ∈ q := by
  by_contra hletter
  rw [introduced?_eq_none_of_lacks fun hby ↦ hletter (hby.subset (by decide))] at h
  cases h

private theorem eq_append_behindFront {a : Text} (ht : t = a ++ behindFront t) (hx : x <+: t)
    (hletter : 'B' ∈ x) : x = a ++ behindFront x ∧ behindFront x <+: behindFront t := by
  obtain ⟨r, rfl⟩ := hx
  rw [behindFront_append hletter] at ht ⊢
  rw [← List.append_assoc] at ht
  exact ⟨List.append_cancel_right ht, List.prefix_append _ r⟩

/-- What a subject introduces wherever it breaks off depends on nothing but what stands behind the
words in front. -/
theorem forall_prefix_introduced?_iff {P : Text → Prop} :
    (∀ x, x <+: t → ∀ z ∈ introduced? s (behindFront x), P z) ↔
      ∀ y, y <+: behindFront t → ∀ z ∈ introduced? s y, P z := by
  obtain ⟨a, ha⟩ : behindFront t <:+ t := (behindFront_suffix t).1.trans (behindFront_suffix t).2
  constructor
  · intro hall y hy z hz
    have hcut : a ++ y <+: t := by
      rw [← ha]
      exact (List.prefix_append_right_inj a).mpr hy
    have hletter : 'B' ∈ a ++ y := List.mem_append_right a (mem_of_mem_introduced? hz)
    have hfront := List.append_cancel_left (eq_append_behindFront ha.symm hcut hletter).1
    exact hall (a ++ y) hcut z (hfront ▸ hz)
  · intro hall x hx z hz
    have hletter : 'B' ∈ x :=
      ((behindFront_suffix x).1.trans (behindFront_suffix x).2).subset (mem_of_mem_introduced? hz)
    exact hall _ (eq_append_behindFront ha.symm hx hletter).2 z hz

private theorem prefix_introducer_cases {u : Text} (hu : u <+: Word.introducer ++ behind)
    (hne : u ≠ []) : u = ['B'] ∨ ∃ v, v <+: behind ∧ u = Word.introducer ++ v := by
  have htext : Word.introducer ++ behind = 'B' :: 'y' :: behind := rfl
  rw [htext] at hu
  rcases u with _ | ⟨c, _ | ⟨d, v⟩⟩
  · exact absurd rfl hne
  · rw [List.cons_prefix_cons] at hu
    exact Or.inl (by rw [hu.1])
  · rw [List.cons_prefix_cons, List.cons_prefix_cons] at hu
    obtain ⟨rfl, rfl, hv⟩ := hu
    exact Or.inr ⟨v, hv, rfl⟩

private theorem prefix_rear_cases (hy : y <+: subject.rear behind) :
    y = [] ∨ y = ['B'] ∨ (∃ p ∈ subject.property, y <+: p.identifier ∨ y = p.identifier ++ ['B']) ∨
      ∃ u, u <+: behind ∧ y = subject.rear u := by
  cases hp : subject.property with
  | none =>
    rw [rear_of_none hp] at hy
    by_cases hne : y = []
    · exact Or.inl hne
    · rcases prefix_introducer_cases hy hne with rfl | ⟨u, hu, rfl⟩
      · exact Or.inr (Or.inl rfl)
      · exact Or.inr (Or.inr (Or.inr ⟨u, hu, (rear_of_none hp u).symm⟩))
  | some p =>
    rw [rear_of_some hp] at hy
    rcases prefix_append_cases hy with hin | ⟨z, hne, rfl, hz⟩
    · exact Or.inr (Or.inr (Or.inl ⟨p, rfl, Or.inl hin⟩))
    · rcases prefix_introducer_cases hz hne with rfl | ⟨u, hu, rfl⟩
      · exact Or.inr (Or.inr (Or.inl ⟨p, rfl, Or.inr rfl⟩))
      · exact Or.inr (Or.inr (Or.inr ⟨u, hu, (rear_of_some hp u).symm⟩))

private theorem IsRead.forall_prefix_rear_iff (h : IsRead s t subject behind number b rest)
    {v : Text} (hv : v <+: behind) :
    (∀ y, y <+: subject.rear v → ∀ z ∈ introduced? s y, Predicate.IsSound s z) ↔
      (∀ p ∈ subject.property, ∀ y, y <+: p.identifier → ∀ z ∈ introduced? s y,
        Predicate.IsSound s z) ∧ ∀ u, u <+: v → Predicate.IsSound s u := by
  constructor
  · intro hall
    refine ⟨fun p hp y hy ↦ hall y (hy.trans ?_), fun u hu ↦ hall (subject.rear u) ?_ u
      (h.introduced?_rear (hu.trans hv))⟩
    · rw [rear_of_some hp]
      exact List.prefix_append _ _
    · obtain ⟨w, rfl⟩ := hu
      rw [rear_append]
      exact List.prefix_append _ w
  · rintro ⟨hproperty, hbehind⟩ y hy z hz
    rcases prefix_rear_cases hy with rfl | rfl | ⟨p, hp, hin | rfl⟩ | ⟨u, hu, rfl⟩
    · cases mem_of_mem_introduced? hz
    · rw [introduced?_eq_none_of_lacks (by decide)] at hz
      cases hz
    · exact hproperty p hp y hin z hz
    · obtain ⟨x, hx, rfl⟩ := h.introduced?_append_letter hp hz
      exact (hproperty p hp _ List.prefix_rfl x hx).append_letter
    · rw [h.introduced?_rear (hu.trans hv)] at hz
      exact Option.some.inj hz ▸ hbehind u hu

private theorem IsRead.behindFront_append_rear (h : IsRead s t subject behind number b rest)
    {a v : Text} (ha : a ++ subject.rear behind = t) (hv : v <+: behind) :
    behindFront (a ++ subject.rear v) = subject.rear v := by
  obtain ⟨w, rfl⟩ := hv
  have hfront := h.behindFront_eq
  have hletter : 'B' ∈ a ++ subject.rear v :=
    List.mem_append_right a (List.mem_append_right _ (List.mem_append_left v (by decide)))
  rw [← ha, rear_append, ← List.append_assoc, behindFront_append hletter] at hfront
  exact List.append_cancel_right hfront

/-- However much is left of the criteria, what a subject introduces can be read wherever the subject
breaks off exactly when this holds of what its property introduces and of the criteria. -/
theorem IsRead.exists_forall_prefix_isSound_iff (h : IsRead s t subject behind number b rest) :
    ∃ a, t = a ++ subject.rear behind ∧ ∀ v, v <+: behind →
      ((∀ x, x <+: a ++ subject.rear v →
          ∀ z ∈ introduced? s (behindFront x), Predicate.IsSound s z) ↔
        (∀ p ∈ subject.property, ∀ y, y <+: p.identifier → ∀ z ∈ introduced? s y,
          Predicate.IsSound s z) ∧ ∀ u, u <+: v → Predicate.IsSound s u) := by
  obtain ⟨a, ha⟩ := (behindFront_suffix t).1.trans (behindFront_suffix t).2
  rw [h.behindFront_eq] at ha
  refine ⟨a, ha.symm, fun v hv ↦ ?_⟩
  rw [forall_prefix_introduced?_iff, h.behindFront_append_rear ha hv, h.forall_prefix_rear_iff hv]

end QueryNames.Subject
