import QueryNames.Proofs.Chain
import QueryNames.Reading.Closing

/-!
# Reading what is written behind the criteria

The marker for all criteria and the sort keys are read back as they were written. The keys follow
each other without a word between them; a key without a direction ends where the next one begins,
because no property begins with a direction.
-/

namespace QueryNames

open Text

namespace Direction

/-- Directions are capital words. -/
theorem isCapitalWord_word (d : Direction) : isCapitalWord d.word = true := by cases d <;> decide

/-- Every direction is in the list of all. -/
theorem mem_all (d : Direction) : d ∈ all := by cases d <;> decide

/-- The two directions are spelled differently. -/
theorem eq_of_word_eq {d d' : Direction} (h : d.word = d'.word) : d = d' := by
  revert h
  cases d <;> cases d' <;> decide

/-- A direction opens, and so does none. -/
theorem opens_getD (d : Option Direction) : Opens ((d.map word).getD []) := by
  rcases d with _ | (_ | _) <;> decide

/-- A direction is read in front of whatever opens. -/
theorem readLongest?_append (d : Direction) {t : Text} (ht : Opens t) :
    Keyword.readLongest? word all (d.word ++ t) = some (d, t) := by
  refine longest?_eq_some_of_unique (mem_all d)
    (Keyword.read?_append (endsInLetter_of_isCapitalWord d.isCapitalWord_word) ht) ?_
  intro d' _ behind hd
  have hhead := (Keyword.isSome_read?_iff d'.isCapitalWord_word).mp (Option.isSome_of_eq_some hd)
  rw [headWord_append d.word_ne_nil ht, headWord_of_isCapitalWord d.isCapitalWord_word] at hhead
  exact (eq_of_word_eq hhead).symm

end Direction

namespace OrderItem

variable {s : Schema}

/-- Sort keys end where no property follows. -/
theorem readAll_of_none {t : Text} (h : s.headProperty? t = none) : readAll s t = ([], t) := by
  rw [readAll]
  split <;> simp_all

/-- A property with a direction is a sort key. -/
theorem readAll_of_direction {t behind rest : Text} {p : Property} {d : Direction}
    (h : s.headProperty? t = some (p, behind))
    (hd : Keyword.readLongest? Direction.word Direction.all behind = some (d, rest)) :
    readAll s t = (⟨p, some d⟩ :: (readAll s rest).1, (readAll s rest).2) := by
  rw [readAll]
  split
  · simp_all
  · split <;> simp_all

/-- A property without a direction is a sort key. -/
theorem readAll_of_no_direction {t behind : Text} {p : Property}
    (h : s.headProperty? t = some (p, behind))
    (hd : Keyword.readLongest? Direction.word Direction.all behind = none) :
    readAll s t = (⟨p, none⟩ :: (readAll s behind).1, (readAll s behind).2) := by
  rw [readAll]
  split
  · simp_all
  · split <;> simp_all

/-- Sort keys open. -/
theorem opens_flatMap_text {items : List OrderItem}
    (h : ∀ i ∈ items, i.property ∈ s.properties) : Opens (items.flatMap text) := by
  cases items with
  | nil => exact opens_nil
  | cons i items =>
    have hi := s.named _ (h i List.mem_cons_self)
    rw [List.flatMap_cons, text, List.append_assoc]
    exact (opens_append_of_ne_nil hi.identifier_ne_nil).mpr i.property.opens_identifier

/-- No direction is read where a sort key begins, nor at the end. -/
theorem readLongest?_direction_flatMap (hs : s.IsSeparable) {items : List OrderItem}
    (h : ∀ i ∈ items, i.property ∈ s.properties) :
    Keyword.readLongest? Direction.word Direction.all (items.flatMap text) = none := by
  refine Keyword.readLongest?_eq_none_iff.mpr fun d _ ↦ ?_
  rw [Keyword.read?_eq_none_iff d.isCapitalWord_word]
  cases items with
  | nil =>
    rw [List.flatMap_nil, headWord_nil]
    exact d.word_ne_nil.symm
  | cons i items =>
    have hi := h i List.mem_cons_self
    have hopen : Opens ((i.direction.map Direction.word).getD [] ++ items.flatMap text) := by
      refine (Direction.opens_getD i.direction).append ?_
      exact opens_flatMap_text fun j hj ↦ h j (List.mem_cons_of_mem i hj)
    rw [List.flatMap_cons, text, List.append_assoc,
      headWord_append (s.named _ hi).identifier_ne_nil hopen]
    intro he
    apply (hs.headIsFree _ hi).headWord_notMem
    rw [he]
    cases d <;> decide

/-- Sort keys are read back as they were written. -/
theorem readAll_flatMap (hs : s.IsSeparable) {items : List OrderItem}
    (h : ∀ i ∈ items, i.property ∈ s.properties) :
    readAll s (items.flatMap text) = (items, []) := by
  induction items with
  | nil => exact readAll_of_none s.headProperty?_nil
  | cons i items ih =>
    obtain ⟨p, d⟩ := i
    have hp : p ∈ s.properties := h ⟨p, d⟩ List.mem_cons_self
    have hrest : ∀ j ∈ items, j.property ∈ s.properties :=
      fun j hj ↦ h j (List.mem_cons_of_mem _ hj)
    have hhead := hs.isPrefixFree.headProperty?_append hp
      ((d.map Direction.word).getD [] ++ items.flatMap text)
    rw [List.flatMap_cons, text, List.append_assoc]
    cases d with
    | none =>
      rw [readAll_of_no_direction hhead (readLongest?_direction_flatMap hs hrest)]
      simp only [Option.map_none, Option.getD_none, List.nil_append, ih hrest]
    | some d =>
      rw [readAll_of_direction hhead (d.readLongest?_append (opens_flatMap_text hrest))]
      simp only [ih hrest]

/-- The word `By` has no place in sort keys. -/
theorem count_introducer_flatMap (hs : s.IsSeparable) {items : List OrderItem}
    (h : ∀ i ∈ items, i.property ∈ s.properties) :
    Keyword.count Word.introducer (items.flatMap text) = 0 := by
  induction items with
  | nil => rfl
  | cons i items ih =>
    obtain ⟨p, d⟩ := i
    have hrest : ∀ j ∈ items, j.property ∈ s.properties :=
      fun j hj ↦ h j (List.mem_cons_of_mem _ hj)
    have hopen := opens_flatMap_text hrest
    have hd := Direction.opens_getD d
    have hcount : Keyword.count Word.introducer ((d.map Direction.word).getD []) = 0 := by
      rcases d with _ | (_ | _) <;> decide
    rw [List.flatMap_cons, text, List.append_assoc,
      Keyword.count_append Word.isCapitalWord_introducer (hd.append hopen),
      Keyword.count_append Word.isCapitalWord_introducer hopen, ih hrest, hcount,
      (hs.lacksIntroducer p (h ⟨p, d⟩ List.mem_cons_self)).count_eq_zero]

end OrderItem

namespace CaseMarker

/-- The markers for all criteria end in a letter. -/
theorem endsInLetter_allWord (m : CaseMarker) : endsInLetter m.allWord = true := by
  cases m <;> decide

/-- The word `By` has no place in a marker for all criteria. -/
theorem count_introducer_getD (m : Option CaseMarker) :
    Keyword.count Word.introducer ((m.map allWord).getD []) = 0 := by
  rcases m with _ | (_ | _) <;> decide

/-- A marker for all criteria consists of name characters. -/
theorem all_isNameChar_getD (m : Option CaseMarker) :
    ((m.map allWord).getD []).all isNameChar = true := by
  rcases m with _ | (_ | _) <;> decide

/-- A marker for all criteria is read in front of whatever opens. -/
theorem readLongest?_allWord_append (m : CaseMarker) {t : Text} (ht : Opens t) :
    Keyword.readLongest? allWord all (m.allWord ++ t) = some (m, t) := by
  refine longest?_eq_some_of_unique (mem_all m)
    (Keyword.read?_append m.endsInLetter_allWord ht) ?_
  intro n hn behind hr
  have hpre : n.allWord <+: m.allWord ++ t := ⟨behind, (Keyword.read?_eq_some_iff.mp hr).1.symm⟩
  have key : ∀ a ∈ all, ∀ b ∈ all, a.allWord <+: b.allWord → a = b := by decide
  rcases List.prefix_or_prefix_of_prefix hpre (List.prefix_append _ t) with h | h
  · exact key n hn m (mem_all m) h
  · exact (key m (mem_all m) n hn h).symm

/-- No marker for all criteria is read where none follows. -/
theorem readAll_of_none {t : Text} (h : Keyword.readLongest? allWord all t = none) :
    readAll t = ([], t) := by
  rw [readAll]
  split <;> simp_all

/-- A marker for all criteria is read with those behind it. -/
theorem readAll_of_some {t behind : Text} {m : CaseMarker}
    (h : Keyword.readLongest? allWord all t = some (m, behind)) :
    readAll t = (m :: (readAll behind).1, (readAll behind).2) := by
  rw [readAll]
  split <;> simp_all

/-- No marker for all criteria is read where the order clause begins. -/
theorem readLongest?_orderBy_append (t : Text) :
    Keyword.readLongest? allWord all (Word.orderBy ++ t) = none := by
  refine Keyword.readLongest?_eq_none_iff.mpr fun m _ ↦ ?_
  cases m <;> rfl

/-- There are no markers for all criteria where the order clause begins. -/
theorem readAll_orderBy_append (t : Text) :
    readAll (Word.orderBy ++ t) = ([], Word.orderBy ++ t) :=
  readAll_of_none (readLongest?_orderBy_append t)

/-- No marker for all criteria is read at the end. -/
theorem readAll_nil : readAll [] = ([], []) := by
  apply readAll_of_none
  refine Keyword.readLongest?_eq_none_iff.mpr fun m _ ↦ ?_
  cases m <;> rfl

end CaseMarker

namespace Closing

variable {s : Schema} {policy : DirectionPolicy}

/-- A marker for all criteria may end a name. -/
theorem read_marker (m : CaseMarker) :
    read policy s m.allWord = (⟨some m, []⟩, [], ⟨.allIgnoreCase, []⟩) := by
  have hm : CaseMarker.readAll m.allWord = ([m], []) := by
    have hr := m.readLongest?_allWord_append opens_nil
    rw [List.append_nil] at hr
    rw [CaseMarker.readAll_of_some hr, CaseMarker.readAll_nil]
  simp [read, hm]

/-- Behind `OrderBy` the sort keys are read back, with or without a marker before it. -/
theorem read_order (hs : s.IsSeparable) (marker : Option CaseMarker) {items : List OrderItem}
    (h : ∀ i ∈ items, i.property ∈ s.properties) :
    read policy s ((marker.map CaseMarker.allWord).getD [] ++ OrderItem.clause items) =
      (⟨marker, items⟩, items.filterMap (OrderItem.defect? policy) ++ OrderItem.endDefects items [],
        ⟨OrderItem.placeAfter items, []⟩) := by
  have hopen := OrderItem.opens_flatMap_text h
  have hclause : Opens (OrderItem.clause items) := opens_cons.mpr rfl
  have hm : CaseMarker.readAll ((marker.map CaseMarker.allWord).getD [] ++ OrderItem.clause items) =
      (marker.toList, OrderItem.clause items) := by
    cases marker with
    | none => exact CaseMarker.readAll_orderBy_append _
    | some m =>
      have hr := m.readLongest?_allWord_append hclause
      rw [Option.map_some, Option.getD_some, CaseMarker.readAll_of_some hr, OrderItem.clause,
        CaseMarker.readAll_orderBy_append]
      rfl
  have hne : ¬(marker.toList ≠ [] ∧ OrderItem.clause items = []) := by
    rintro ⟨-, hc⟩
    cases hc
  have hr : Keyword.read? Word.orderBy (OrderItem.clause items) =
      some (items.flatMap OrderItem.text) :=
    Keyword.read?_append (by decide) hopen
  have htail : marker.toList.tail = [] := by cases marker <;> rfl
  have hhead : marker.toList.head? = marker := by cases marker <;> rfl
  simp only [read, hm, if_neg hne, hr, OrderItem.readAll_flatMap hs h, htail, hhead,
    List.map_nil, List.nil_append]

/-- A marker for all criteria may end a name. -/
theorem isTail_marker (m : CaseMarker) : Predicate.Chain.IsTail m.allWord := by
  have h := Predicate.Chain.isTail_marker m opens_nil
  rwa [List.append_nil] at h

/-- An order clause may stand behind the criteria, with or without a marker before it. -/
theorem isTail_order (marker : Option CaseMarker) {items : List OrderItem}
    (h : ∀ i ∈ items, i.property ∈ s.properties) :
    Predicate.Chain.IsTail
      ((marker.map CaseMarker.allWord).getD [] ++ OrderItem.clause items) := by
  cases marker with
  | none => exact Predicate.Chain.isTail_order (OrderItem.opens_flatMap_text h)
  | some m => exact Predicate.Chain.isTail_marker m (opens_cons.mpr rfl)

/-- The word `By` has one place in what is written behind the criteria, in the order clause. -/
theorem count_introducer_order (hs : s.IsSeparable) (marker : Option CaseMarker)
    {items : List OrderItem} (h : ∀ i ∈ items, i.property ∈ s.properties) :
    Keyword.count Word.introducer
      ((marker.map CaseMarker.allWord).getD [] ++ OrderItem.clause items) = 1 := by
  have hclause : Opens (OrderItem.clause items) := opens_cons.mpr rfl
  rw [Keyword.count_append Word.isCapitalWord_introducer hclause,
    CaseMarker.count_introducer_getD, OrderItem.clause,
    Keyword.count_append Word.isCapitalWord_introducer (OrderItem.opens_flatMap_text h),
    OrderItem.count_introducer_flatMap hs h]
  decide

/-- What is written behind the criteria consists of name characters. -/
theorem all_isNameChar_order (marker : Option CaseMarker) {items : List OrderItem}
    (h : ∀ i ∈ items, i.property ∈ s.properties) :
    ((marker.map CaseMarker.allWord).getD [] ++ OrderItem.clause items).all isNameChar = true := by
  have hitems : (items.flatMap OrderItem.text).all isNameChar = true := by
    apply List.all_eq_true.mpr
    intro c hc
    obtain ⟨i, hi, hc⟩ := List.mem_flatMap.mp hc
    rcases List.mem_append.mp hc with hc | hc
    · exact List.all_eq_true.mp (s.named _ (h i hi)).all_isNameChar c hc
    · have hd : ((i.direction.map Direction.word).getD []).all isNameChar = true := by
        rcases i.direction with _ | (_ | _) <;> decide
      exact List.all_eq_true.mp hd c hc
  have hword : Word.orderBy.all isNameChar = true := by decide
  rw [List.all_append, OrderItem.clause, List.all_append, CaseMarker.all_isNameChar_getD, hword,
    hitems]
  rfl

variable {g : Grammar} {c : Closing}

private theorem text_eq_of_order_nil {m : Option CaseMarker} :
    text ⟨m, []⟩ = (m.map CaseMarker.allWord).getD [] :=
  List.append_nil _

/-- Only where nothing stands behind the criteria is nothing written there. -/
theorem eq_absent_of_text_eq_nil (h : c.text = []) : c = absent := by
  obtain ⟨marker, order⟩ := c
  cases order with
  | nil =>
    rw [text_eq_of_order_nil] at h
    cases marker with
    | none => rfl
    | some m => exact absurd h m.allWord_ne_nil
  | cons i items => exact absurd (List.append_eq_nil_iff.mp h).2 (List.cons_ne_nil _ _)

/-- Sort keys that the grammar allows have no defect. -/
theorem filterMap_defect?_eq_nil {items : List OrderItem} (h : ∀ i ∈ items, i.IsDeclared g s) :
    items.filterMap (OrderItem.defect? g.missingDirection) = [] := by
  apply List.filterMap_eq_nil_iff.mpr
  intro i hi
  have hdir := (h i hi).direction_isSome
  unfold OrderItem.defect?
  split
  · next hpolicy hnone =>
    have := hdir hpolicy
    rw [hnone] at this
    cases this
  · rfl

/-- What is written behind the criteria may stand there. -/
theorem isTail_text (h : ∀ i ∈ c.order, i.IsDeclared g s) : Predicate.Chain.IsTail c.text := by
  obtain ⟨marker, order⟩ := c
  cases order with
  | nil =>
    rw [text_eq_of_order_nil]
    cases marker with
    | none => exact Or.inl rfl
    | some m => exact isTail_marker m
  | cons i items => exact isTail_order marker fun j hj ↦ (h j hj).property_mem

/-- The word `By` has at most one place in what is written behind the criteria. -/
theorem count_introducer_text (hs : s.IsSeparable) (h : ∀ i ∈ c.order, i.IsDeclared g s) :
    Keyword.count Word.introducer c.text ≤ 1 := by
  obtain ⟨marker, order⟩ := c
  cases order with
  | nil =>
    rw [text_eq_of_order_nil, CaseMarker.count_introducer_getD]
    exact Nat.zero_le 1
  | cons i items =>
    exact Nat.le_of_eq (count_introducer_order hs marker fun j hj ↦ (h j hj).property_mem)

/-- What is written behind the criteria consists of name characters. -/
theorem all_isNameChar_text (h : ∀ i ∈ c.order, i.IsDeclared g s) :
    c.text.all isNameChar = true := by
  obtain ⟨marker, order⟩ := c
  cases order with
  | nil =>
    rw [text_eq_of_order_nil]
    exact CaseMarker.all_isNameChar_getD marker
  | cons i items => exact all_isNameChar_order marker fun j hj ↦ (h j hj).property_mem

/-- What is written behind the criteria is read back without a defect. -/
theorem read_text (hs : s.IsSeparable) (h : ∀ i ∈ c.order, i.IsDeclared g s) (hne : c.text ≠ []) :
    ∃ edge, read g.missingDirection s c.text = (c, [], edge) := by
  obtain ⟨marker, order⟩ := c
  cases order with
  | nil =>
    rw [text_eq_of_order_nil] at hne ⊢
    cases marker with
    | none => exact absurd rfl hne
    | some m => exact ⟨_, read_marker m⟩
  | cons i items =>
    have hitems : ∀ j ∈ i :: items, j.property ∈ s.properties := fun j hj ↦ (h j hj).property_mem
    have hread : read g.missingDirection s _ = _ := read_order hs marker hitems
    rw [filterMap_defect?_eq_nil h] at hread
    exact ⟨_, hread⟩

end Closing

end QueryNames
