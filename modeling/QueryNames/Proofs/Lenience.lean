import QueryNames.Proofs.Sections

/-!
# Sort keys without a direction

A grammar that lets sort keys ascend when they do not say otherwise is more lenient than one with
the same verbs that rejects such keys, and in nothing else. The two read every text in the same way;
only the defects of the sort keys without a direction are forgiven.
-/

namespace QueryNames

open Text

namespace Defect

/-- Whether a defect says that a sort key has no direction. -/
def isMissingDirection : Defect → Bool
  | missingDirection _ => true
  | missingVerb | missingBy | invalidLimit _ | unknownSubject _ | emptyPredicate | unknownProperty _
  | unknownOperator _ _ | danglingConjunction _ | repeatedAllIgnoreCase | unexpectedText _
  | emptyOrder | unknownOrderProperty _ => false

/-- The defects other than those of sort keys without a direction. -/
def forgive (defects : List Defect) : List Defect := defects.filter (!·.isMissingDirection)

/-- Whether no defect is one of a sort key without a direction. -/
def AreStrict (defects : List Defect) : Prop := ∀ d ∈ defects, d.isMissingDirection = false

@[simp] theorem forgive_append (xs ys : List Defect) : forgive (xs ++ ys) = forgive xs ++ forgive ys :=
  List.filter_append xs ys

/-- Where no direction is missing, nothing is forgiven. -/
theorem AreStrict.forgive_eq {ds : List Defect} (h : AreStrict ds) : forgive ds = ds := by
  apply List.filter_eq_self.mpr
  intro d hd
  rw [h d hd]
  rfl

/-- Where no direction is missing, none is found. -/
theorem AreStrict.filter_eq_nil {ds : List Defect} (h : AreStrict ds) :
    ds.filter isMissingDirection = [] := by
  apply List.filter_eq_nil_iff.mpr
  intro d hd
  rw [h d hd]
  exact Bool.false_ne_true

/-- No direction is missing in two lists of defects if none is missing in either. -/
theorem AreStrict.append {xs ys : List Defect} (hx : AreStrict xs) (hy : AreStrict ys) :
    AreStrict (xs ++ ys) := by
  intro d hd
  cases List.mem_append.mp hd with
  | inl h => exact hx d h
  | inr h => exact hy d h

end Defect

namespace Subject

/-- What is asked for lacks no direction. -/
theorem areStrict_read (s : Schema) (t : Text) : Defect.AreStrict (read s t).defects := by
  have hlimit : ∀ number, Defect.AreStrict (limitDefects number) := by
    intro number d hd
    unfold limitDefects at hd
    split at hd
    · split at hd
      · rw [List.mem_singleton.mp hd]
        rfl
      · cases hd
    · cases hd
  have hend : ∀ number d, d.isMissingDirection = false →
      Defect.AreStrict (limitDefects number ++ [d]) := by
    intro number d hd
    apply (hlimit number).append
    intro e he
    rw [List.mem_singleton.mp he]
    exact hd
  unfold read
  split
  split
  split
  · exact hlimit _
  · split
    · exact hlimit _
    · split
      · exact hend _ _ rfl
      · split
        · exact hend _ _ rfl
        · exact hend _ _ rfl

end Subject

namespace Predicate

/-- The criteria lack no direction. -/
theorem areStrict_read {s : Schema} {t : Text} {p : Passage Predicate} (h : read s t = .ok p) :
    Defect.AreStrict p.defects := by
  have hcriterion : ∀ f d, defect? s f = some d → d.isMissingDirection = false := by
    intro f d hd
    simp only [defect?] at hd
    split at hd
    · rw [← Option.some.inj hd]
      rfl
    · split at hd
      · cases hd
      · rw [← Option.some.inj hd]
        rfl
  have hend : ∀ m, Defect.AreStrict (endDefects m) := by
    intro m d hd
    unfold endDefects at hd
    split at hd
    · split at hd
      · rw [List.mem_singleton.mp hd]
        rfl
      · rw [List.mem_singleton.mp hd]
        rfl
    · cases hd
  simp only [read] at h
  split at h
  · cases h
  · split at h
    · cases h
    · rw [← Except.ok.inj h]
      apply Defect.AreStrict.append _ (hend _)
      intro d hd
      obtain ⟨f, -, hf⟩ := List.mem_filterMap.mp hd
      exact hcriterion f d hf

end Predicate

namespace OrderItem

variable {items : List OrderItem}

/-- A sort key lacks a direction only under the strict policy. -/
theorem filterMap_defect?_ascending (items : List OrderItem) :
    items.filterMap (defect? .ascending) = [] := by
  apply List.filterMap_eq_nil_iff.mpr
  intro i _
  rfl

/-- The defects of sort keys are those of missing directions. -/
theorem filter_filterMap_defect? (policy : DirectionPolicy) (items : List OrderItem) :
    (items.filterMap (defect? policy)).filter Defect.isMissingDirection =
      items.filterMap (defect? policy) := by
  apply List.filter_eq_self.mpr
  intro d hd
  obtain ⟨i, -, hi⟩ := List.mem_filterMap.mp hd
  unfold defect? at hi
  split at hi
  · rw [← Option.some.inj hi]
    rfl
  · cases hi

/-- The defects of sort keys are all forgiven. -/
theorem forgive_filterMap_defect? (policy : DirectionPolicy) (items : List OrderItem) :
    Defect.forgive (items.filterMap (defect? policy)) = [] := by
  apply List.filter_eq_nil_iff.mpr
  intro d hd
  rw [← filter_filterMap_defect?] at hd
  rw [(List.mem_filter.mp hd).2]
  exact Bool.false_ne_true

/-- The end of the sort keys lacks no direction. -/
theorem areStrict_endDefects (items : List OrderItem) (rest : Text) :
    Defect.AreStrict (endDefects items rest) := by
  intro d hd
  unfold endDefects at hd
  split at hd
  · rw [List.mem_singleton.mp hd]
    rfl
  · split at hd
    · rw [List.mem_singleton.mp hd]
      rfl
    · cases hd

/-- Under the strict policy no sort key has a defect exactly when each has a direction. -/
theorem filterMap_defect?_reject_eq_nil_iff :
    items.filterMap (defect? .reject) = [] ↔ ∀ i ∈ items, i.direction.isSome := by
  rw [List.filterMap_eq_nil_iff]
  apply forall₂_congr
  intro i _
  cases hi : i.direction with
  | none => simp [defect?, hi]
  | some d => simp [defect?, hi]

end OrderItem

namespace Closing

private theorem areStrict_repeated (markers : List CaseMarker) :
    Defect.AreStrict (markers.map fun _ ↦ Defect.repeatedAllIgnoreCase) := by
  intro d hd
  obtain ⟨m, -, rfl⟩ := List.mem_map.mp hd
  rfl

/-- What stands behind the criteria is read in the same way under both policies, but only the strict
one has defects of sort keys without a direction. -/
theorem read_ascending (s : Schema) (t : Text) :
    read .ascending s t =
      ((read .reject s t).1, Defect.forgive (read .reject s t).2.1, (read .reject s t).2.2) := by
  have hrepeated := areStrict_repeated (CaseMarker.readAll t).1.tail
  simp only [read]
  split
  · simp only [hrepeated.forgive_eq]
  · split
    · have hunexpected : ∀ rest, Defect.AreStrict [.unexpectedText rest] := by
        intro rest d hd
        rw [List.mem_singleton.mp hd]
        rfl
      simp only [Defect.forgive_append, hrepeated.forgive_eq, (hunexpected _).forgive_eq]
    · simp only [Defect.forgive_append, hrepeated.forgive_eq,
        OrderItem.forgive_filterMap_defect?, OrderItem.filterMap_defect?_ascending,
        (OrderItem.areStrict_endDefects _ _).forgive_eq]

/-- The missing directions behind the criteria are those of the sort keys. -/
theorem filter_isMissingDirection_read (policy : DirectionPolicy) (s : Schema) (t : Text) :
    (read policy s t).2.1.filter Defect.isMissingDirection =
      (read policy s t).1.order.filterMap (OrderItem.defect? policy) := by
  have hrepeated := areStrict_repeated (CaseMarker.readAll t).1.tail
  simp only [read]
  split
  · simp only [hrepeated.filter_eq_nil, List.filterMap_nil]
  · split
    · simp only [List.filter_append, hrepeated.filter_eq_nil, List.filterMap_nil]
      rfl
    · simp only [List.filter_append, hrepeated.filter_eq_nil, OrderItem.filter_filterMap_defect?,
        (OrderItem.areStrict_endDefects _ _).filter_eq_nil, List.nil_append, List.append_nil]

end Closing

namespace Reading

/-- The reading without the defects of sort keys that have no direction. -/
def forgive (r : Reading) : Reading := { r with defects := Defect.forgive r.defects }

end Reading

namespace Grammar

variable {g : Grammar} {s : Schema} {t : Text} {r : Reading}

/-- The grammar with the same verbs under the given policy. -/
def withPolicy (g : Grammar) (policy : DirectionPolicy) : Grammar :=
  { g with missingDirection := policy }

private theorem readBehind_ascending (source verb rest : Text) :
    (g.withPolicy .ascending).readBehind s source verb rest =
      ((g.withPolicy .reject).readBehind s source verb rest).map Reading.forgive := by
  have hsubject := Subject.areStrict_read s rest
  cases hs : (Subject.read s rest).next with
  | stop edge =>
    rw [readBehind_of_stop hs, readBehind_of_stop hs]
    simp only [Except.map, Reading.forgive, hsubject.forgive_eq]
  | resume behind =>
    cases hp : Predicate.read s behind with
    | error fault =>
      rw [readBehind_of_error hs hp, readBehind_of_error hs hp]
      rfl
    | ok p =>
      have hall := hsubject.append (Predicate.areStrict_read hp)
      cases hn : p.next with
      | stop edge =>
        rw [readBehind_of_criteria hs hp hn, readBehind_of_criteria hs hp hn]
        simp only [Except.map, Reading.forgive, hall.forgive_eq]
      | resume tail =>
        rw [readBehind_of_closing hs hp hn, readBehind_of_closing hs hp hn]
        simp only [Except.map, Reading.forgive, withPolicy, Closing.read_ascending]
        rw [Defect.forgive_append, hall.forgive_eq]

/-- Reading under the lenient policy is reading under the strict one, with the sort keys that have
no direction forgiven. -/
theorem read_ascending (g : Grammar) (s : Schema) (t : Text) :
    (g.withPolicy .ascending).read s t =
      ((g.withPolicy .reject).read s t).map Reading.forgive := by
  simp only [read]
  cases t.find? fun c ↦ !isNameChar c with
  | some c => rfl
  | none =>
    have hverbs : ∀ policy, (g.withPolicy policy).verbs = g.verbs := fun _ ↦ rfl
    simp only [hverbs]
    cases Keyword.readLongest? id g.verbs t with
    | none => rfl
    | some m => exact readBehind_ascending t m.1 m.2

private theorem filter_isMissingDirection_readBehind {source verb rest : Text}
    (h : g.readBehind s source verb rest = .ok r) :
    r.defects.filter Defect.isMissingDirection =
      r.query.closing.order.filterMap (OrderItem.defect? g.missingDirection) := by
  have hsubject := Subject.areStrict_read s rest
  cases hs : (Subject.read s rest).next with
  | stop edge =>
    rw [readBehind_of_stop hs] at h
    rw [← Except.ok.inj h]
    exact hsubject.filter_eq_nil
  | resume behind =>
    cases hp : Predicate.read s behind with
    | error fault =>
      rw [readBehind_of_error hs hp] at h
      cases h
    | ok p =>
      have hall := hsubject.append (Predicate.areStrict_read hp)
      cases hn : p.next with
      | stop edge =>
        rw [readBehind_of_criteria hs hp hn] at h
        rw [← Except.ok.inj h]
        exact hall.filter_eq_nil
      | resume tail =>
        rw [readBehind_of_closing hs hp hn] at h
        rw [← Except.ok.inj h, List.filter_append, hall.filter_eq_nil, List.nil_append]
        exact Closing.filter_isMissingDirection_read g.missingDirection s tail

/-- The missing directions among the defects of a reading are those of its sort keys. -/
theorem filter_isMissingDirection_of_read (h : g.read s t = .ok r) :
    r.defects.filter Defect.isMissingDirection =
      r.query.closing.order.filterMap (OrderItem.defect? g.missingDirection) := by
  simp only [read] at h
  split at h
  · cases h
  · split at h
    · rw [← Except.ok.inj h]
      rfl
    · exact filter_isMissingDirection_readBehind h

/-- A name is valid under the strict policy exactly when it is so under the lenient one and every
sort key has a direction. -/
theorem isValid_iff_forgive (h : (g.withPolicy .reject).read s t = .ok r) :
    r.isValid = true ↔
      r.forgive.isValid = true ∧ ∀ i ∈ r.query.closing.order, i.direction.isSome := by
  have hmissing : r.defects.filter Defect.isMissingDirection =
      r.query.closing.order.filterMap (OrderItem.defect? .reject) :=
    filter_isMissingDirection_of_read h
  rw [← OrderItem.filterMap_defect?_reject_eq_nil_iff, ← hmissing, Reading.isValid,
    Reading.isValid, List.isEmpty_iff, List.isEmpty_iff, Reading.forgive, Defect.forgive,
    List.filter_eq_nil_iff, List.filter_eq_nil_iff, List.eq_nil_iff_forall_not_mem]
  constructor
  · intro hnone
    exact ⟨fun d hd ↦ absurd hd (hnone d), fun d hd ↦ absurd hd (hnone d)⟩
  · intro hboth d hd
    have hleft := hboth.1 d hd
    rw [Bool.not_eq_true', Bool.not_eq_false] at hleft
    exact hboth.2 d hd hleft

end Grammar

namespace Place

/-- The lenient policy offers at least the words that the strict one offers. -/
theorem mem_words_ascending {g : Grammar} {s : Schema} {place : Place} {w : Text}
    (h : w ∈ place.words (g.withPolicy .reject) s) : w ∈ place.words (g.withPolicy .ascending) s := by
  cases place with
  | orderProperty =>
    have hdirection : w ∈ Direction.all.map Direction.word ++ [] := h
    rw [List.append_nil] at hdirection
    exact List.mem_append_left _ hdirection
  | _ => exact h

end Place

namespace Reading

/-- What the strict policy offers, the lenient one offers too. -/
theorem mem_options_forgive {g : Grammar} {s : Schema} {r : Reading} {o : Text}
    (h : o ∈ r.options (g.withPolicy .reject) s) :
    o ∈ r.forgive.options (g.withPolicy .ascending) s := by
  rw [mem_options_iff_exists] at h ⊢
  obtain ⟨stem, hstem, hoption⟩ := h
  refine ⟨stem, hstem, ?_⟩
  rcases hoption with ⟨w, hw, hpre, ho⟩ | hverb | ⟨hvalid, ho⟩
  · exact Or.inl ⟨w, Place.mem_words_ascending hw, hpre, ho⟩
  · exact Or.inr (Or.inl hverb)
  · refine Or.inr (Or.inr ⟨?_, ho⟩)
    have hnone : r.defects = [] := List.isEmpty_iff.mp hvalid
    rw [isValid, forgive, hnone]
    rfl

end Reading

/-- The lenient policy is a conservative extension of the strict one. Over the same verbs and
properties either both refuse a text for the same reason, or both read it as the same query, with
the same defects in the same order but for those of sort keys without a direction. So a name is
valid under the strict policy exactly when it is so under the lenient one and every sort key has a
direction, and everything that the strict policy offers the lenient one offers too. -/
theorem Grammar.ascending_extends_reject (g : Grammar) (s : Schema) (t : Text) :
    (∃ fault, (g.withPolicy .reject).read s t = .error fault ∧
      (g.withPolicy .ascending).read s t = .error fault) ∨
    ∃ r a, (g.withPolicy .reject).read s t = .ok r ∧ (g.withPolicy .ascending).read s t = .ok a ∧
      a.query = r.query ∧ a.defects = r.defects.filter (!·.isMissingDirection) ∧
      (r.isValid = true ↔
        a.isValid = true ∧ ∀ i ∈ a.query.closing.order, i.direction.isSome = true) ∧
      ∀ o ∈ r.options (g.withPolicy .reject) s, o ∈ a.options (g.withPolicy .ascending) s := by
  have hlenient := read_ascending g s t
  cases hstrict : (g.withPolicy .reject).read s t with
  | error fault =>
    rw [hstrict] at hlenient
    exact Or.inl ⟨fault, rfl, hlenient⟩
  | ok r =>
    rw [hstrict] at hlenient
    exact Or.inr ⟨r, r.forgive, rfl, hlenient, rfl, rfl, isValid_iff_forgive hstrict,
      fun o ho ↦ Reading.mem_options_forgive ho⟩

end QueryNames
