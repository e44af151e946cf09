import QueryNames.Proofs.CheckedPredicate
import QueryNames.Proofs.Sections
import QueryNames.Proofs.TypedCriteria
import QueryNames.Proofs.TypedSubject

/-!
# Reading never traps

Section by section a caret in front of what is left goes the way of the reader that is given what is
left, so a checked reading of a whole name gives what reading it gives. No text, schema or grammar
makes it trap: no slice is out of range or inside a character, and no loop fails to end.
-/

namespace QueryNames

open Text Caret

variable {s : Schema} {t r : Text}

namespace Subject

private theorem readDistinctChecked_before (h : r <:+ t) :
    readDistinctChecked (before t r) =
      .ok ((readDistinct r).1, before t (readDistinct r).2) := by
  rw [readDistinctChecked, readDistinct, read?_before h (by decide), Trap.ok_bind]
  cases Keyword.read? Word.distinct r <;> rfl

private theorem readLimitChecked_before (h : r <:+ t) :
    readLimitChecked (before t r) = .ok ((readLimit r).1, before t (readLimit r).2) := by
  rw [readLimitChecked, readLimit, readLongest?_before h (by decide), Trap.ok_bind]
  cases hread : Keyword.readLongest? LimitWord.word LimitWord.all r with
  | none => rfl
  | some m =>
    have hbehind : m.2 <:+ t := (Keyword.suffix_of_readLongest? hread).trans h
    simp only [Option.map_some, readDigits_before hbehind, Trap.ok_bind]
    rfl

private theorem readPropertyChecked?_before (h : r <:+ t) :
    readPropertyChecked? s (before t r) =
      .ok ((readProperty? s r).map fun m ↦ (m.1, before t m.2)) := by
  rw [readPropertyChecked?, readProperty?, headProperty?_before h, Trap.ok_bind]
  cases hp : s.headProperty? r with
  | none => rfl
  | some m =>
    have hbehind : m.2 <:+ t := (Schema.suffix_of_headProperty? hp).trans h
    simp only [Option.map_some, read?_before hbehind (by decide : Word.introducer ≠ []),
      Trap.ok_bind, Option.bind_some, Option.map_map]
    rfl

/-- A subject is read in front of what is left as it is read there. -/
theorem readChecked_before (h : r <:+ t) :
    readChecked s (before t r) = .ok ((read s r).before t) := by
  have hby : ∀ k ∈ [Word.introducer], (id k).head?.any Char.isUpper = true := by decide
  have hne : Word.introducer ≠ [] := by decide
  obtain ⟨hlimit, hdistinct⟩ := behindFront_suffix r
  have hrest : (readLimit (readDistinct r).2).2 <:+ t := hlimit.trans (hdistinct.trans h)
  simp only [readChecked, read, readDistinctChecked_before h, Trap.ok_bind,
    readLimitChecked_before (hdistinct.trans h), read?_before hrest hne]
  generalize (readLimit (readDistinct r).2).1 = number
  generalize (readLimit (readDistinct r).2).2 = rest at hrest ⊢
  cases Keyword.read? Word.introducer rest with
  | some behind => rfl
  | none =>
    simp only [Option.map_none, readPropertyChecked?_before hrest, Trap.ok_bind]
    cases readProperty? s rest with
    | some m => rfl
    | none =>
      have hsearch : (before t rest).search? id [Word.introducer] = _ := search?_before hrest hby
      simp only [Option.map_none, hsearch, Trap.ok_bind]
      cases hfirst : Keyword.splitAtFirst? id [Word.introducer] rest with
      | some m =>
        obtain ⟨front, word, behind⟩ := m
        obtain rfl : word = Word.introducer := by
          have hread := Keyword.readLongest?_of_splitAtFirst? hfirst
          exact List.mem_singleton.mp (of_longest? hread).1
        have htext := Keyword.eq_of_splitAtFirst? hfirst
        rw [List.append_assoc] at htext
        subst htext
        have hthere : Word.introducer ++ behind <:+ t := (List.suffix_append _ _).trans hrest
        have hfront : (before t (front ++ (Word.introducer ++ behind))).textTo
            (before t (Word.introducer ++ behind)) = .ok front := textTo_before hrest
        have hadvance : (before t (Word.introducer ++ behind)).advance (byteSize Word.introducer) =
            .ok (before t behind) := advance_before hthere
        simp only [Option.map_some, id, hfront, hadvance, Trap.ok_bind]
        rfl
      | none =>
        simp only [Option.map_none, Trap.ok_bind, headProperty?_before hrest]
        cases hp : s.headProperty? rest with
        | some m =>
          have hbehind : m.2 <:+ t := (Schema.suffix_of_headProperty? hp).trans hrest
          simp only [Option.map_some, ahead_before hbehind, Trap.ok_bind]
          rfl
        | none =>
          simp only [Option.map_none, ahead_before hrest, Trap.ok_bind]
          rfl

end Subject

/-- The offsets that the loops of a reading have gone through are in order: in each loop they go up
from round to round, all of them lie in the text, and no criterion ends before it starts. -/
structure Trace.IsOrderly (t : Text) (trace : Trace) : Prop where
  criteria : Spans 0 (byteSize t) trace.criteria
  markers : Ascends 0 (byteSize t) trace.markers
  order : Ascends 0 (byteSize t) trace.order

namespace Closing

/-- What stands behind the criteria is read in front of what is left as it is read there. -/
theorem readChecked_before {policy : DirectionPolicy} (h : r <:+ t) :
    ∃ trace, readChecked policy s (before t r) = .ok (trace, read policy s r) ∧
      trace.criteria = [] ∧ Ascends 0 (byteSize t) trace.markers ∧
        Ascends 0 (byteSize t) trace.order := by
  obtain ⟨markers, hall, hmarkers⟩ := CaseMarker.readAllChecked_before h
  have hrest : (CaseMarker.readAll r).2 <:+ t :=
    List.IsSuffix.trans ⟨_, (CaseMarker.eq_of_readAll rfl).symm⟩ h
  have hread : (before t (CaseMarker.readAll r).2).read? Word.orderBy = _ :=
    read?_before hrest (by decide)
  have hempty : (CaseMarker.readAll r).1.head?.isSome = decide ((CaseMarker.readAll r).1 ≠ []) := by
    cases (CaseMarker.readAll r).1 <;> rfl
  simp only [readChecked, hall, Trap.ok_bind, isAtEnd_before hrest, hempty, hread, read]
  generalize (CaseMarker.readAll r).1 = found at *
  generalize (CaseMarker.readAll r).2 = rest at *
  have hcond : (decide (found ≠ []) && decide (rest = [])) = decide (found ≠ [] ∧ rest = []) := by
    rw [Bool.decide_and]
  rw [hcond]
  by_cases hend : found ≠ [] ∧ rest = []
  · rw [if_pos (decide_eq_true hend), if_pos hend]
    exact ⟨{ markers := markers }, rfl, rfl, hmarkers, .nil⟩
  · rw [if_neg (by rw [decide_eq_true_eq]; exact hend), if_neg hend]
    cases hby : Keyword.read? Word.orderBy rest with
    | none =>
      simp only [Option.map_none, Trap.ok_bind, ahead_before hrest]
      exact ⟨{ markers := markers }, rfl, rfl, hmarkers, .nil⟩
    | some behind =>
      have hbehind : behind <:+ t := by
        rw [(Keyword.read?_eq_some_iff.mp hby).1] at hrest
        exact (List.suffix_append _ _).trans hrest
      obtain ⟨order, hruns, horder⟩ := @OrderItem.exists_runs policy s t behind [] hbehind
      have hloop : Turn.loop (OrderItem.round policy s) (byteSize t + 1)
          ⟨before t behind, [], .orderStart, []⟩ = _ :=
        hruns.loop_eq_of_ascends id (by rwa [List.map_id])
      have hstart : (before t r).text = t := rfl
      simp only [Option.map_some, hstart, hloop, Trap.ok_bind, List.nil_append]
      refine ⟨{ markers := markers, order := order }, ?_, rfl, hmarkers,
        horder.of_le (Nat.zero_le _)⟩
      rw [List.append_assoc]
      rfl

end Closing

namespace Grammar

variable {g : Grammar}

private theorem isOrderly_empty (t : Text) : Trace.IsOrderly t {} :=
  ⟨⟨.nil, List.forall_mem_nil _⟩, .nil, .nil⟩

private theorem readBehindChecked_before (h : r <:+ t) (verb : Text) :
    ∃ trace, g.readBehindChecked s t verb (before t r) = .ok (trace, g.readBehind s t verb r) ∧
      trace.IsOrderly t := by
  rw [readBehindChecked, Subject.readChecked_before h, Trap.ok_bind]
  cases hsubject : (Subject.read s r).next with
  | stop edge =>
    simp only [Passage.before, hsubject, Next.before, readBehind_of_stop hsubject]
    exact ⟨{}, rfl, isOrderly_empty t⟩
  | resume behind =>
    have hbehind : behind <:+ t := (Subject.suffix_of_resume hsubject).trans h
    obtain ⟨criteria, hcriteria, hspans⟩ := Predicate.readChecked_before (s := s) hbehind
    have horderly : Trace.IsOrderly t { criteria := criteria } := ⟨hspans, .nil, .nil⟩
    simp only [Passage.before, hsubject, Next.before, hcriteria, Trap.ok_bind]
    cases hread : Predicate.read s behind with
    | error fault =>
      rw [readBehind_of_error hsubject hread]
      exact ⟨_, rfl, horderly⟩
    | ok p =>
      cases hnext : p.next with
      | stop edge =>
        rw [readBehind_of_criteria hsubject hread hnext]
        simp only [Except.map, Passage.before, hnext, Next.before]
        exact ⟨_, rfl, horderly⟩
      | resume tail =>
        have htail : tail <:+ t := (Predicate.suffix_of_resume hread hnext).trans hbehind
        obtain ⟨trace, hclosing, -, hmarkers, horder⟩ :=
          @Closing.readChecked_before s t tail g.missingDirection htail
        rw [readBehind_of_closing hsubject hread hnext]
        simp only [Except.map, Passage.before, hnext, Next.before, hclosing, Trap.ok_bind]
        exact ⟨{ trace with criteria := criteria }, rfl, hspans, hmarkers, horder⟩

/-- A whole name is read by byte offsets as it is read without them. -/
theorem readChecked_eq (g : Grammar) (s : Schema) (t : Text) :
    ∃ trace, g.readChecked s t = .ok (trace, g.read s t) ∧ trace.IsOrderly t := by
  rw [readChecked, read]
  cases t.find? fun c ↦ !isNameChar c with
  | some c => exact ⟨{}, rfl, isOrderly_empty t⟩
  | none =>
    have hstart : place t 0 = .ok (before t t) := place_byteSize [] t
    have hverbs : ∀ v ∈ g.verbs, id v ≠ [] := fun v hv ↦ verb_ne_nil hv
    simp only [hstart, Trap.ok_bind, readLongest?_before (List.suffix_refl t) hverbs]
    cases hverb : Keyword.readLongest? id g.verbs t with
    | none =>
      simp only [Option.map_none, ahead_before (List.suffix_refl t), Trap.ok_bind]
      exact ⟨{}, rfl, isOrderly_empty t⟩
    | some m =>
      have hbehind : m.2 <:+ t := Keyword.suffix_of_readLongest? hverb
      exact readBehindChecked_before hbehind m.1

example : (standard.readChecked .sample "findByTextOrDate".toList).toOption.map (·.1.criteria) =
    some [(6, 10), (12, 16)] := by decide +kernel

/-- Reading and completion never trap. Every text is read by byte offsets as it is read without
them: no slice is out of range or inside a character, no place lies outside the text and no loop
fails to end. In each of the three loops the offset goes up from round to round, and no criterion
ends before it starts. The options of every text are cut by byte offsets too, and every text of any
characters is read as a criterion by cutting lengths off it. -/
theorem checked_eq (g : Grammar) (s : Schema) :
    (∀ t, ∃ trace, g.readChecked s t = .ok (trace, g.read s t) ∧ trace.IsOrderly t) ∧
      (∀ t, g.optionsChecked s t = .ok (g.options s t)) ∧
        ∀ t, Criterion.ofTextChecked s t = .ok (Criterion.ofText s t) := by
  refine ⟨g.readChecked_eq s, fun t ↦ ?_, Criterion.ofTextChecked_eq s⟩
  obtain ⟨trace, hread, -⟩ := g.readChecked_eq s t
  rw [optionsChecked, hread, options]
  cases g.read s t with
  | error fault => rfl
  | ok r =>
    simp only [Trap.ok_bind, r.optionsChecked_eq g s]
    rfl

end Grammar

end QueryNames
