import QueryNames.Proofs.Residue

/-!
# `OrderBy` among the criteria

Order clauses are counted over the whole text behind `By`, without regard to properties. In a
separable schema this does no harm: no place of `OrderBy` is left in a criterion that is understood,
so the count does not change when criteria are put in front of a text.
-/

namespace QueryNames

open Text

namespace Conjunction

/-- `OrderBy` does not begin inside a conjunction. -/
theorem count_orderBy_append (k : Conjunction) {t : Text} (ht : Opens t) :
    Keyword.count Word.orderBy (k.word ++ t) = Keyword.count Word.orderBy t := by
  have hcons : ∀ (c : Char) (u : Text), ¬Word.orderBy <+: c :: u →
      Keyword.count Word.orderBy (c :: u) = Keyword.count Word.orderBy u := by
    intro c u hu
    rw [Keyword.count, Keyword.read?_eq_none_of_not_prefix hu]
    exact Nat.zero_add _
  have hhead : ∀ (c : Char) (u : Text), c ≠ 'O' → ¬Word.orderBy <+: c :: u := by
    intro c u hc hpre
    exact hc (List.cons_prefix_cons.mp hpre).1.symm
  cases k with
  | and =>
    change Keyword.count Word.orderBy ('A' :: 'n' :: 'd' :: t) = _
    rw [hcons _ _ (hhead _ _ (by decide)), hcons _ _ (hhead _ _ (by decide)),
      hcons _ _ (hhead _ _ (by decide))]
  | or =>
    change Keyword.count Word.orderBy ('O' :: 'r' :: t) = _
    rw [hcons _ _ fun hpre ↦ ?_, hcons _ _ (hhead _ _ (by decide))]
    -- the third letter of `OrderBy` does not open
    obtain ⟨u, hu⟩ := hpre
    obtain rfl : 'd' :: ("erBy".toList ++ u) = t := (List.cons.inj (List.cons.inj hu).2).2
    exact absurd ht (by rw [opens_cons]; decide)

end Conjunction

namespace Predicate

variable {s : Schema} {f a b c y behind : Text} {p q : Property}

private theorem checked_orderBy_endings :
    (∀ k ∈ Operator.keywords, Bars k Word.orderBy) ∧ 'I' ∉ Word.orderBy ∧
      ∀ v ∈ Word.orderBy.tails, 2 ≤ v.length → ∀ m ∈ CaseMarker.all, ¬v.take 2 <:+: m.word := by
  decide +kernel

section Ending

variable (hy : Word.orderBy = c ++ y) (hc : c ≠ []) (hne : y ≠ [])

include hy hc hne

private theorem not_prefix_keyword {k : Text} (hk : k = [] ∨ k ∈ Operator.keywords) : ¬y <+: k := by
  rcases hk with rfl | hk
  · exact fun hpre ↦ hne (List.prefix_nil.mp hpre)
  · refine checked_orderBy_endings.1 k hk y ?_ hne
    rw [hy, List.tail_append_of_ne_nil hc, List.mem_tails]
    exact List.suffix_append _ y

omit hc in
private theorem not_prefix_marker_append (m : CaseMarker) (x : Text) : ¬y <+: m.word ++ x := by
  intro hpre
  obtain ⟨d, y, rfl⟩ := List.exists_cons_of_ne_nil hne
  rw [CaseMarker.word_eq_cons, List.cons_append] at hpre
  obtain rfl := (List.cons_prefix_cons.mp hpre).1
  apply checked_orderBy_endings.2.1
  rw [hy]
  exact List.mem_append_right c List.mem_cons_self

private theorem ne_of_marker_split {m : CaseMarker} {x x' u v w : Text} (hm : m.word = x ++ x')
    (hx : x ≠ []) (hx' : x' ≠ []) (hfront : a ++ c = u ++ x) : y ++ v ≠ x' ++ w := by
  intro hback
  obtain ⟨c, l, rfl⟩ := (List.eq_nil_or_concat' c).resolve_left hc
  obtain ⟨x, l', rfl⟩ := (List.eq_nil_or_concat' x).resolve_left hx
  obtain ⟨d, y, rfl⟩ := List.exists_cons_of_ne_nil hne
  obtain ⟨d', x', rfl⟩ := List.exists_cons_of_ne_nil hx'
  obtain rfl : d = d' := (List.cons.inj hback).1
  obtain rfl : l = l' := by
    rw [← List.append_assoc, ← List.append_assoc] at hfront
    exact List.singleton_inj.mp (List.append_inj_right' hfront rfl)
  refine checked_orderBy_endings.2.2 (l :: d :: y) ?_ ?_ m (CaseMarker.mem_all m) ?_
  · rw [hy, List.mem_tails, List.append_assoc]
    exact List.suffix_append _ _
  · simp
  · rw [hm]
    exact ⟨x, x', by simp⟩

private theorem not_prefix_in_front_of_marker {m : CaseMarker} {k x : Text}
    (hf : s.IsPrefixFree) (hp : p ∈ s.properties) (hq : q ∈ s.properties)
    (hk : k = [] ∨ k ∈ Operator.keywords)
    (hrest : p.identifier ++ k = q.identifier ++ (x ++ behind)) : ¬y <+: x ++ (m.word ++ behind) := by
  intro hpre
  rcases prefix_append_cases hpre with hx | ⟨z, hz, rfl, hzm⟩
  · have heq : q = p := by
      have hpq : q.identifier <+: p.identifier ++ k := ⟨x ++ behind, hrest.symm⟩
      rcases List.prefix_or_prefix_of_prefix hpq (List.prefix_append p.identifier k) with h | h
      · exact hf q hq p hp h
      · exact (hf p hp q hq h).symm
    rw [heq] at hrest
    -- so what follows the property is the keyword of the operator
    rw [List.append_cancel_left hrest] at hk
    exact not_prefix_keyword hy hc hne hk (hx.trans (List.prefix_append x behind))
  · rw [← List.append_assoc] at hy
    exact not_prefix_marker_append hy hz m behind hzm

private theorem not_prefix_inside_marker {m : CaseMarker} {before x : Text} (hlacks : q.LacksMarkers)
    (hq : q.identifier = a ++ c) (hidentifier : q.identifier = before ++ x)
    (hmarker : m.word ++ behind = x ++ b) : ¬y <+: b := by
  intro hpre
  rcases List.append_eq_append_iff.mp hmarker with ⟨z, rfl, -⟩ | ⟨z, hword, rfl⟩
  · exact hlacks m ⟨before, z, by rw [hidentifier, List.append_assoc]⟩
  · by_cases hx : x = []
    · rw [hx, List.nil_append] at hword
      rw [← hword] at hpre
      exact not_prefix_marker_append hy hne m behind hpre
    · by_cases hz : z = []
      · rw [hz, List.append_nil] at hword
        refine hlacks m ⟨before, [], ?_⟩
        rw [hidentifier, hword, List.append_nil]
      · obtain ⟨v, hv⟩ := hpre
        exact ne_of_marker_split hy hc hne hword hx hz (hq.symm.trans hidentifier) hv

end Ending

private theorem not_prefix_of_head (hs : s.IsSeparable) (hd : defect? s f = none)
    (hh : s.headProperty? f = some (q, b)) (hq : q.identifier = a ++ c)
    (hy : Word.orderBy = c ++ y) (hc : c ≠ []) (hne : y ≠ []) : ¬y <+: b := by
  obtain ⟨hproperty, hresidue⟩ := defect?_eq_none_iff.mp hd
  obtain ⟨p, hp⟩ := Option.isSome_iff_exists.mp hproperty
  obtain ⟨hmem, hcut⟩ := Criterion.cut_of_property_eq_some hp
  have hread := (Criterion.read_of_property hp).1
  obtain ⟨hqmem, hf⟩ := Schema.eq_of_headProperty? hh
  have hkeyword := (Criterion.ofText s f).keyword_eq_nil_or_mem
  rw [hresidue, List.append_nil] at hcut hread
  cases hm : (Criterion.ofText s f).marker with
  | none =>
    rw [hm] at hcut
    rw [hcut, CaseMarker.eq_of_cut_none hcut, hh] at hread
    rw [(Prod.mk.inj (Option.some.inj hread)).2]
    exact not_prefix_keyword hy hc hne hkeyword
  | some m =>
    rw [hm] at hcut
    obtain ⟨before, behind, hfm, hrest, -⟩ := CaseMarker.exists_eq_of_cut hcut
    rcases List.append_eq_append_iff.mp (hf.symm.trans hfm) with
      ⟨x, rfl, rfl⟩ | ⟨x, hidentifier, hmarker⟩
    · rw [List.append_assoc] at hrest
      exact not_prefix_in_front_of_marker hy hc hne hs.isPrefixFree hmem hqmem hkeyword hrest
    · exact not_prefix_inside_marker hy hc hne (hs.lacksMarkers q hqmem) hq hidentifier hmarker

/-- `OrderBy` has no place in a criterion that is understood and that nothing ends. -/
theorem count_orderBy_eq_zero (hs : s.IsSeparable) (hd : defect? s f = none)
    (hsplit : splitCriterion s f = (f, none)) : Keyword.count Word.orderBy f = 0 := by
  rw [splitCriterion_eq_self_iff, Keyword.splitAtFirst?_eq_none_iff] at hsplit
  have hbehind : ∀ u v, s.behindHead f = u ++ v → v ≠ [] → Keyword.read? Word.orderBy v = none :=
    fun u v huv hv ↦ Keyword.readLongest?_eq_none_iff.mp (hsplit u v huv hv) .order (by decide)
  refine Keyword.count_eq_zero_iff.mpr fun a b hab hb ↦ ?_
  cases hh : s.headProperty? f with
  | none =>
    have hself : s.behindHead f = f := by simp only [Schema.behindHead, hh]
    exact hbehind a b (hself.trans hab) hb
  | some m =>
    obtain ⟨q, rest⟩ := m
    obtain ⟨hq, hf⟩ := Schema.eq_of_headProperty? hh
    have hrest : s.behindHead f = rest := by simp only [Schema.behindHead, hh]
    rw [hrest] at hbehind
    rcases List.append_eq_append_iff.mp (hf.symm.trans hab) with ⟨x, -, hx⟩ | ⟨x, hx, rfl⟩
    · exact hbehind x b hx hb
    · cases hr : Keyword.read? Word.orderBy (x ++ rest) with
      | none => rfl
      | some z =>
        obtain ⟨heq, hopen⟩ := (Keyword.read?_eq_some_iff_opens (by decide)).mp hr
        by_cases hnil : x = []
        · rw [hnil, List.nil_append] at hr hb
          rw [hbehind [] rest rfl hb] at hr
          cases hr
        · rcases prefix_append_cases ⟨z, heq.symm⟩ with ⟨d, rfl⟩ | ⟨y, hy, hword, hpre⟩
          · -- inside the property the word would be a place of `By`
            have hcount := Keyword.count_orderBy_le q.identifier
            rw [(hs.lacksIntroducer q hq).count_eq_zero, Nat.le_zero_eq,
              Keyword.count_eq_zero_iff] at hcount
            have hnone := hcount a (Word.orderBy ++ d) hx hnil
            rw [List.append_assoc] at heq
            rw [← List.append_cancel_left heq] at hopen
            rw [Keyword.read?_append (by decide) (hopen.of_isPrefix (List.prefix_append d rest))]
              at hnone
            cases hnone
          · exact absurd hpre (not_prefix_of_head hs hd hh hx hword hnil hy)

end Predicate

end QueryNames
