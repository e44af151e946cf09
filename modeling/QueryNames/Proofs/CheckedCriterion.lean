import QueryNames.Checked.Criterion
import QueryNames.Proofs.Carets
import QueryNames.Proofs.Fragment
import QueryNames.Proofs.Marker

/-!
# Reading criteria by slices

Whatever characters a text has, reading it as a criterion by slices does not trap and gives what
reading it without offsets gives: a marker is cut out where it stands, and the property and the
operator are no longer than the text they are cut from and end between two characters. The words
that completion cuts off others are no longer than those either.
-/

namespace QueryNames

open Text

namespace CaseMarker

private theorem first?_eq (t : Text) :
    first? t =
      match offsetOf? ignoreCase.word t, offsetOf? ignoringCase.word t with
      | none, none => none
      | some a, none => some (.ignoreCase, a)
      | none, some b => some (.ignoringCase, b)
      | some a, some b => some (if a ≤ b then (.ignoreCase, a) else (.ignoringCase, b)) := by
  unfold first? all
  simp only [List.filterMap_cons, List.filterMap_nil]
  cases offsetOf? ignoreCase.word t with
  | none => cases offsetOf? ignoringCase.word t <;> rfl
  | some a =>
    cases offsetOf? ignoringCase.word t with
    | none => rfl
    | some b =>
      show some (minOn Prod.snd (ignoreCase, a) (ignoringCase, b)) = _
      rw [minOn_eq_if]

private theorem offsetOf?_of_isPrefix {m : CaseMarker} {c : Char} {t : Text}
    (h : m.word <+: c :: t) : offsetOf? m.word (c :: t) = some 0 := by
  rw [offsetOf?, if_pos (List.isPrefixOf_iff_prefix.mpr h)]

private theorem offsetOf?_of_not_isPrefix {m : CaseMarker} {c : Char} {t : Text}
    (h : ¬m.word <+: c :: t) :
    offsetOf? m.word (c :: t) = (offsetOf? m.word t).map (c.utf8Size + ·) := by
  rw [offsetOf?, if_neg (mt List.isPrefixOf_iff_prefix.mp h)]

private theorem first?_of_read {m : CaseMarker} {c : Char} {t behind : Text}
    (h : read? (c :: t) = some (m, behind)) : first? (c :: t) = some (m, 0) := by
  have hpos := Char.utf8Size_pos c
  have hm : m.word <+: c :: t := ⟨behind, (read?_eq_some_iff.mp h).symm⟩
  have hother : ∀ n, n ≠ m → ¬n.word <+: c :: t := by
    rintro n hne ⟨y, hy⟩
    rw [read?_eq_some_iff.mpr hy.symm] at h
    exact hne (congrArg Prod.fst (Option.some.inj h))
  rw [first?_eq]
  cases m with
  | ignoreCase =>
    rw [offsetOf?_of_isPrefix hm]
    cases offsetOf? ignoringCase.word (c :: t) <;> rfl
  | ignoringCase =>
    rw [offsetOf?_of_isPrefix hm, offsetOf?_of_not_isPrefix (hother _ (by decide))]
    cases offsetOf? ignoreCase.word t with
    | none => rfl
    | some a =>
      simp only [Option.map_some]
      rw [if_neg (by omega)]

private theorem first?_of_read_none {c : Char} {t : Text} (h : read? (c :: t) = none) :
    first? (c :: t) = (first? t).map fun m ↦ (m.1, c.utf8Size + m.2) := by
  have hnot := read?_eq_none_iff.mp h
  rw [first?_eq, first?_eq, offsetOf?_of_not_isPrefix (hnot _), offsetOf?_of_not_isPrefix (hnot _)]
  cases offsetOf? ignoreCase.word t with
  | none => cases offsetOf? ignoringCase.word t <;> rfl
  | some a =>
    cases offsetOf? ignoringCase.word t with
    | none => rfl
    | some b =>
      simp only [Option.map_some, Nat.add_le_add_iff_left]
      split <;> rfl

private theorem cut_eq (t : Text) :
    match first? t with
    | some (m, offset) =>
      ∃ front back, t = front ++ (m.word ++ back) ∧ byteSize front = offset ∧
        cut t = (some m, front ++ back)
    | none => cut t = (none, t) := by
  induction t with
  | nil => rfl
  | cons c t ih =>
    rw [cut]
    cases h : read? (c :: t) with
    | some m =>
      obtain ⟨m, behind⟩ := m
      rw [first?_of_read h]
      exact ⟨[], behind, read?_eq_some_iff.mp h, rfl, rfl⟩
    | none =>
      rw [first?_of_read_none h]
      cases hfirst : first? t with
      | none =>
        rw [hfirst] at ih
        simp only [Option.map_none, ih]
      | some m =>
        rw [hfirst] at ih
        obtain ⟨front, back, ht, hsize, hcut⟩ := ih
        refine ⟨c :: front, back, congrArg (c :: ·) ht, ?_, ?_⟩
        · rw [byteSize_cons, hsize]
        · simp only [hcut, List.cons_append]

/-- A marker is cut out by slices. -/
theorem cutChecked_eq (t : Text) : cutChecked t = .ok (cut t) := by
  have hcut := cut_eq t
  rw [cutChecked]
  cases hfirst : first? t with
  | none =>
    rw [hfirst] at hcut
    rw [hcut]
    rfl
  | some m =>
    obtain ⟨m, offset⟩ := m
    rw [hfirst] at hcut
    obtain ⟨front, back, rfl, rfl, hcut⟩ := hcut
    have hback := sliceFrom_append (front ++ m.word) back
    rw [byteSize_append, List.append_assoc] at hback
    have hroom : ¬byteSize (front ++ (m.word ++ back)) < byteSize m.word := by
      rw [byteSize_append, byteSize_append]
      omega
    simp only [if_neg hroom, sliceTo_append, hback, Trap.ok_bind, hcut]
    rfl

end CaseMarker

private theorem Text.mapM_sliceFrom {w : Text} {wanted rest : Text → Bool}
    (h : ∀ k, wanted k = true ↔ ∃ r, k = w ++ r ∧ rest r = true) (l : List Text) :
    (l.filter wanted).mapM (fun k ↦ sliceFrom k (byteSize w)) =
      .ok (l.filterMap fun k ↦ (w.isPrefixOf? k).filter rest) := by
  induction l with
  | nil => rfl
  | cons k l ih =>
    cases hk : wanted k with
    | true =>
      obtain ⟨r, rfl, hr⟩ := (h k).mp hk
      rw [List.filter_cons_of_pos hk, List.mapM_cons, sliceFrom_append, ih, List.filterMap_cons,
        isPrefixOf?_append, Option.filter_some, if_pos hr]
      rfl
    | false =>
      have hnone : (w.isPrefixOf? k).filter rest = none := by
        refine Option.filter_eq_none_iff.mpr fun r hr hrest ↦ ?_
        rw [(h k).mpr ⟨r, isPrefixOf?_eq_some_iff.mp hr, hrest⟩] at hk
        cases hk
      rw [List.filter_cons_of_neg (by rw [hk]; exact Bool.false_ne_true), ih, List.filterMap_cons,
        hnone]

namespace Criterion

/-- A text of any characters is read as a criterion by slices. -/
theorem ofTextChecked_eq (s : Schema) (t : Text) : ofTextChecked s t = .ok (ofText s t) := by
  rw [ofTextChecked, CaseMarker.cutChecked_eq, Trap.ok_bind, ofText]
  cases hhead : s.headProperty? (CaseMarker.cut t).2 with
  | none => simp only [hhead]; rfl
  | some m =>
    obtain ⟨p, behind⟩ := m
    obtain ⟨hp, hwords⟩ := Schema.eq_of_headProperty? hhead
    have hslice := sliceFrom_append p.identifier behind
    rw [(s.named p hp).byteSize_identifier, ← hwords] at hslice
    simp only [hhead, hslice, Trap.ok_bind]
    cases hread : Spelling.read? behind with
    | none =>
      have hall := sliceFrom_append [] behind
      simp only [byteSize_nil, List.nil_append] at hall
      simp only [hall, Trap.ok_bind]
      rfl
    | some m =>
      obtain ⟨spelling, residue⟩ := m
      have hrest := sliceFrom_append spelling.keyword residue
      rw [← Spelling.eq_of_read? hread] at hrest
      simp only [hrest, Trap.ok_bind]
      rfl

private theorem nextKeywordsChecked_eq (c : Criterion) :
    c.nextKeywordsChecked = .ok c.nextKeywords := by
  rw [nextKeywordsChecked, nextKeywords]
  cases c.property with
  | none => rfl
  | some p =>
    by_cases hgroup : c.group = []
    · simp only [hgroup, if_true]
      rfl
    · simp only [hgroup, if_false]
      have hwanted : ∀ k, c.group.isPrefixOf k = true ↔ ∃ r, k = c.group ++ r ∧ true = true :=
        fun k ↦ by simp [List.prefix_iff_exists_eq_append]
      rw [Text.mapM_sliceFrom hwanted]
      refine congrArg Except.ok (List.filterMap_congr fun k _ ↦ ?_)
      cases c.group.isPrefixOf? k <;> rfl

private theorem keywordTailsChecked_eq (c : Criterion) :
    c.keywordTailsChecked = .ok c.keywordTails := by
  rw [keywordTailsChecked, keywordTails]
  cases c.property with
  | none => rfl
  | some p =>
    cases c.spelling with
    | none => rfl
    | some s =>
      refine Text.mapM_sliceFrom (fun k ↦ ?_) _
      rw [Bool.and_eq_true, decide_eq_true_eq, List.isPrefixOf_iff_prefix]
      constructor
      · rintro ⟨hlt, r, rfl⟩
        refine ⟨r, rfl, decide_eq_true ?_⟩
        rintro rfl
        rw [List.append_nil] at hlt
        exact absurd hlt (Nat.lt_irrefl _)
      · rintro ⟨r, rfl, hr⟩
        have hpos : byteSize r ≠ 0 := mt (byteSize_eq_zero_iff r).mp (of_decide_eq_true hr)
        refine ⟨?_, List.prefix_append _ r⟩
        rw [byteSize_append]
        omega

end Criterion

namespace Place

/-- The words of a place are cut off by slices. -/
theorem wordsChecked_eq (g : Grammar) (s : Schema) (p : Place) :
    p.wordsChecked g s = .ok (p.words g s) := by
  cases p with
  | criterionStart behindOr =>
    cases behindOr with
    | false => rfl
    | true =>
      have hslice : Word.orderBy.sliceFrom (byteSize Conjunction.or.word) = .ok "derBy".toList := by
        decide
      rw [wordsChecked, hslice]
      rfl
  | criterion c =>
    rw [wordsChecked, words, c.keywordTailsChecked_eq, c.nextKeywordsChecked_eq]
    cases c.spelling.isSome <;> rfl
  | _ => rfl

end Place

/-- The options of a reading are cut by slices. -/
theorem Reading.optionsChecked_eq (g : Grammar) (s : Schema) (r : Reading) :
    r.optionsChecked g s = .ok (r.options g s) := by
  rw [optionsChecked, options]
  cases r.edge.residue.isSuffixOf? r.source with
  | none => rfl
  | some stem =>
    simp only [Place.wordsChecked_eq, Trap.ok_bind]
    rfl

end QueryNames
