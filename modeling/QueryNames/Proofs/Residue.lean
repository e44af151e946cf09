import QueryNames.Proofs.Coverage
import QueryNames.Proofs.LoneProperty
import QueryNames.Proofs.TypedClosing
import QueryNames.Proofs.TypedCriteria
import QueryNames.Proofs.TypedSubject

/-!
# What is left at the edge of a reading

Each section reads the longest word that it can. So what is left where a name breaks off is none of
the words that may stand there. This is plain for all places but the end of a criterion, where a
marker has been cut out: what is left there may come from both sides of it.
-/

namespace QueryNames

open Text

namespace Subject

variable {s : Schema} {t : Text} {e : Edge}

private theorem behindFront_of_no_limit (hl : (readLimit (readDistinct t).2).1 = none) :
    behindFront t = (readDistinct t).2 :=
  eq_of_readLimit_none (Prod.ext hl rfl)

private theorem behindFront_ne_distinct (hd : (readDistinct t).1 = false)
    (hl : (readLimit (readDistinct t).2).1 = none) : behindFront t ≠ Word.distinct := by
  rw [behindFront_of_no_limit hl]
  intro heq
  simp only [readDistinct] at hd heq
  split at hd
  · cases hd
  · next hnone =>
    rw [hnone] at heq
    rw [show t = Word.distinct from heq, Keyword.read?_self] at hnone
    cases hnone

private theorem behindFront_ne_limitWord (hl : (readLimit (readDistinct t).2).1 = none)
    (w : LimitWord) : behindFront t ≠ w.word := by
  rw [behindFront_of_no_limit hl]
  refine Keyword.ne_of_readLongest?_eq_none ?_ (LimitWord.mem_all w)
  simp only [readLimit] at hl
  split at hl
  · cases hl
  · next hnone => exact hnone

/-- What is left where a subject breaks off is none of the words that may stand there. -/
theorem residue_notMem_words (g : Grammar) (hall : t.all isNameChar = true)
    (h : (read s t).next = .stop e) : e.residue ∉ e.place.words g s := by
  rw [next_read] at h
  obtain ⟨hby, hproperty, ⟨p, behind, hhead, rfl⟩ | ⟨hnone, rfl⟩⟩ := stop_cases h
  · intro hmem
    obtain rfl : behind = Word.introducer := List.mem_singleton.mp hmem
    simp only [readProperty?, hhead, Option.bind_some, Keyword.read?_self, Option.map_some] at hproperty
    cases hproperty
  · intro hmem
    simp only [Place.words, List.mem_append] at hmem
    rcases hmem with (((hdistinct | hlimit) | hslot) | hword) | hid
    · split at hdistinct
      · cases hdistinct
      · next hflags =>
        simp only [Bool.or_eq_true, not_or, Bool.not_eq_true, Option.isSome_eq_false_iff,
          Option.isNone_iff_eq_none] at hflags
        exact behindFront_ne_distinct hflags.1 hflags.2 (List.mem_singleton.mp hdistinct)
    · split at hlimit
      · cases hlimit
      · next hflag =>
        rw [Bool.not_eq_true, Option.isSome_eq_false_iff, Option.isNone_iff_eq_none] at hflag
        obtain ⟨w, -, hw⟩ := List.mem_map.mp hlimit
        exact behindFront_ne_limitWord hflag w hw.symm
    · split at hslot
      · -- the number slot is no text of name characters
        have hslot : '[' ∈ behindFront t := by
          rw [List.mem_singleton.mp hslot]
          decide
        have hmem := ((behindFront_suffix t).1.trans (behindFront_suffix t).2).subset hslot
        exact absurd (List.all_eq_true.mp hall '[' hmem) (by decide)
      · cases hslot
    · rw [List.mem_singleton.mp hword, Keyword.read?_self] at hby
      cases hby
    · obtain ⟨p, hp, heq⟩ := List.mem_map.mp hid
      exact Schema.headProperty?_eq_none_iff.mp hnone p hp (heq ▸ List.prefix_rfl)

end Subject

namespace Criterion

variable {s : Schema} {t : Text} {p : Property}

/-- What is left of a criterion is no word that its operator goes on with. -/
theorem residue_notMem_nextWords (hp : (ofText s t).property = some p) :
    (ofText s t).residue ∉ (ofText s t).nextWords := by
  intro hmem
  obtain ⟨o, -, ho⟩ := exists_suits_of_mem_nextWords hp hmem
  have hread := Spelling.read?_keyword ⟨o, _, ho⟩
  rw [show Spelling.keyword ⟨o, _, ho⟩ = (ofText s t).keyword ++ (ofText s t).residue from rfl,
    (read_of_property hp).2] at hread
  cases hsp : (ofText s t).spelling with
  | none =>
    rw [hsp] at hread
    cases hread
  | some sp =>
    rw [hsp] at hread
    have hnil := (Prod.mk.inj (Option.some.inj hread)).2
    exact ne_nil_of_mem_nextWords hmem hnil

/-- What is left of a criterion is no marker unless one has been cut out. -/
theorem residue_ne_marker {stem : Text} (ht : t = stem ++ (ofText s t).residue)
    (hp : (ofText s t).property = some p) (hm : (ofText s t).marker = none) (m : CaseMarker) :
    (ofText s t).residue ≠ m.word := by
  intro heq
  obtain ⟨-, hcut⟩ := cut_of_property_eq_some hp
  have hlacks : LacksMarkers t := CaseMarker.lacksMarkers_of_cut (by rw [hcut, hm])
  rw [heq] at ht
  exact hlacks m ⟨stem, [], by rw [List.append_nil, ht]⟩

private theorem not_suffix_marker (w : Terminator) (m : CaseMarker) {x y : Text}
    (hw : w.word = x ++ y) (hx : x ≠ []) : ¬x <:+ m.word := by
  have key : ∀ w ∈ Terminator.all, ∀ m ∈ CaseMarker.all,
      w.word.head?.any (m.word.contains ·) = false := by decide
  obtain ⟨c, x, rfl⟩ := List.exists_cons_of_ne_nil hx
  have hc := key w (Terminator.mem_all w) m (CaseMarker.mem_all m)
  rw [hw, List.cons_append, List.head?_cons, Option.any_some, List.contains_eq_mem,
    decide_eq_false_iff_not] at hc
  intro hsuffix
  exact hc (hsuffix.subset List.mem_cons_self)

private theorem suffix_behind_marker {before behind front stem : Text} {m : CaseMarker}
    {w : Terminator} (hlacks : LacksMarkers before)
    (hrest : front ++ w.word = before ++ behind)
    (ht : stem ++ w.word = before ++ (m.word ++ behind)) : w.word <:+ behind := by
  rcases List.append_eq_append_iff.mp hrest with ⟨x, hbefore, hw⟩ | ⟨x, -, hbehind⟩
  · by_cases hx : x = []
    · rw [hw, hx]
      exact List.suffix_rfl
    · -- otherwise the word begins in front of the marker and goes on inside it
      rw [hw, ← List.append_assoc, ← List.append_assoc] at ht
      rcases List.append_eq_append_iff.mp (List.append_cancel_right ht) with
        ⟨y, -, hxy⟩ | ⟨y, -, hm⟩
      · refine absurd ?_ (hlacks m)
        rw [hbefore, hxy]
        exact ⟨front ++ y, [], by rw [List.append_nil, List.append_assoc]⟩
      · exact absurd ⟨y, hm.symm⟩ (not_suffix_marker w m hw hx)
  · exact ⟨x, hbehind.symm⟩

/-- Where a word that ends a criterion is left of it, the word stands behind the property at the
head of the text. -/
theorem suffix_behindHead_of_residue (hlacks : ∀ q ∈ s.properties, q.LacksMarkers) {stem : Text}
    (hp : (ofText s t).property = some p) (ht : t = stem ++ (ofText s t).residue) {w : Terminator}
    (hw : (ofText s t).residue = w.word) : w.word <:+ s.behindHead t := by
  obtain ⟨-, hcut⟩ := cut_of_property_eq_some hp
  have hread := (read_of_property hp).1
  rw [hw] at ht hcut hread
  cases hh : s.headProperty? t with
  | none =>
    rw [show s.behindHead t = t by simp only [Schema.behindHead, hh]]
    exact ⟨stem, ht.symm⟩
  | some n =>
    obtain ⟨q, b⟩ := n
    obtain ⟨hq, hqt⟩ := Schema.eq_of_headProperty? hh
    rw [show s.behindHead t = b by simp only [Schema.behindHead, hh]]
    cases hmarker : (ofText s t).marker with
    | none =>
      rw [hmarker] at hcut
      rw [hcut, CaseMarker.eq_of_cut_none hcut, hh] at hread
      rw [(Prod.mk.inj (Option.some.inj hread)).2]
      exact List.suffix_append _ _
    | some m =>
      rw [hmarker] at hcut
      obtain ⟨before, behind, htm, hrest, hbefore⟩ := CaseMarker.exists_eq_of_cut hcut
      rw [← List.append_assoc] at hrest
      have hbehind := suffix_behind_marker hbefore hrest (ht.symm.trans htm)
      refine hbehind.trans (List.suffix_of_suffix_length_le ⟨before ++ m.word, ?_⟩
        ⟨q.identifier, hqt.symm⟩ ?_)
      · rw [htm, List.append_assoc]
      · -- the property ends before the marker does, since it does not hold the marker
        by_contra hlt
        refine hlacks q hq m ?_
        have hpre : before ++ m.word <+: q.identifier := by
          refine List.prefix_of_prefix_length_le ⟨behind, ?_⟩ ⟨b, hqt.symm⟩ ?_
          · rw [htm, List.append_assoc]
          · have hlength := congrArg List.length (hqt.symm.trans htm)
            simp only [List.length_append] at hlength ⊢
            omega
        exact (List.suffix_append before m.word).isInfix.trans hpre.isInfix

/-- What is left of a criterion that nothing ends is no word that could end it. -/
theorem residue_ne_terminator (hlacks : ∀ q ∈ s.properties, q.LacksMarkers) {stem : Text}
    (hp : (ofText s t).property = some p) (ht : t = stem ++ (ofText s t).residue)
    (hsplit : Predicate.splitCriterion s t = (t, none)) (w : Terminator) :
    (ofText s t).residue ≠ w.word := by
  intro hw
  obtain ⟨u, hu⟩ := suffix_behindHead_of_residue hlacks hp ht hw
  rw [Predicate.splitCriterion_eq_self_iff, Keyword.splitAtFirst?_eq_none_iff] at hsplit
  have hnone := hsplit u w.word hu.symm (Terminator.word_ne_nil w)
  exact Keyword.ne_of_readLongest?_eq_none hnone (Terminator.mem_all w) rfl

/-- What is left of a criterion that nothing ends is none of the words that may stand there. -/
theorem residue_notMem_words (g : Grammar) (hlacks : ∀ q ∈ s.properties, q.LacksMarkers)
    {stem : Text} (hp : (ofText s t).property = some p) (ht : t = stem ++ (ofText s t).residue)
    (hsplit : Predicate.splitCriterion s t = (t, none)) :
    (ofText s t).residue ∉ (Place.criterion (ofText s t)).words g s := by
  intro hmem
  rcases mem_words_iff.mp hmem with hnext | hclose
  · exact residue_notMem_nextWords hp hnext
  · simp only [nextClosers, List.mem_append, List.mem_singleton, List.mem_map] at hclose
    rcases hclose with ((hmarker | ⟨k, -, hk⟩) | ⟨m, -, hm⟩) | horder
    · split at hmarker
      · cases hmarker
      · next hnone =>
        rw [Bool.not_eq_true, Option.isSome_eq_false_iff, Option.isNone_iff_eq_none] at hnone
        obtain ⟨m, -, hm⟩ := List.mem_map.mp hmarker
        exact residue_ne_marker ht hp hnone m hm.symm
    · exact residue_ne_terminator hlacks hp ht hsplit (.join k) hk.symm
    · exact residue_ne_terminator hlacks hp ht hsplit (.marker m) hm.symm
    · exact residue_ne_terminator hlacks hp ht hsplit .order horder

end Criterion

namespace Predicate

variable {s : Schema} {t : Text} {e : Edge}

/-- What is left where the criteria break off is none of the words that may stand there. -/
theorem residue_notMem_words (g : Grammar) (hlacks : ∀ q ∈ s.properties, q.LacksMarkers)
    {p : Passage Predicate} (h : read s t = .ok p) (hn : p.next = .stop e)
    (ht : e.residue <:+ t) : e.residue ∉ e.place.words g s := by
  have hnext := (eq_of_read h).2.2.2
  rw [hn] at hnext
  have htail := tail_of_next_eq_stop hnext.symm
  cases hm : chain s t with
  | mk joined last tail =>
  rw [hm] at hnext htail
  obtain rfl : tail = [] := htail
  obtain ⟨htext, hsplit, hopen⟩ := splitCriterion_last hm
  cases hp : (Criterion.ofText s last).property with
  | some q =>
    rw [next_of_property rfl (by rw [hp]; rfl)] at hnext
    obtain rfl := Next.stop.inj hnext
    obtain ⟨stem, hstem⟩ := List.suffix_of_suffix_length_le ht ⟨_, htext.symm⟩
      (Criterion.length_residue_le hp)
    exact Criterion.residue_notMem_words g hlacks hp hstem.symm hsplit
  | none =>
    rw [next_of_no_property rfl (by rw [hp]; rfl)] at hnext
    obtain rfl := Next.stop.inj hnext
    intro hmem
    rcases List.mem_append.mp hmem with hid | hrest
    · obtain ⟨q, hq, rfl⟩ := List.mem_map.mp hid
      rw [(Criterion.ofText_identifier_iff hq).mpr (hlacks q hq)] at hp
      cases hp
    · split at hrest
      · next hor =>
        -- behind `Or` a text opens, and the rest of `OrderBy` does not
        have hne : joined ≠ [] := by
          rintro rfl
          cases hor
        obtain rfl : last = "derBy".toList := List.mem_singleton.mp hrest
        exact absurd (hopen hne) (by decide)
      · cases hrest

end Predicate

namespace OrderItem

variable {s : Schema} {t rest : Text} {items : List OrderItem}

/-- Sort keys end where no property stands, and behind one without a direction none stands. -/
theorem end_readAll (h : readAll s t = (items, rest)) :
    s.headProperty? rest = none ∧
      (placeAfter items = .orderProperty →
        Keyword.readLongest? Direction.word Direction.all rest = none) := by
  fun_induction readAll s t generalizing items rest with
  | case1 t hr =>
    obtain ⟨rfl, rfl⟩ := Prod.mk.inj h
    refine ⟨hr, fun hplace ↦ ?_⟩
    cases hplace
  | case2 t p behind hr d behind' hd items' rest' hi ih =>
    obtain ⟨rfl, rfl⟩ := Prod.mk.inj h
    obtain ⟨hnone, hdirection⟩ := ih hi
    refine ⟨hnone, fun hplace ↦ hdirection ?_⟩
    cases items' with
    | nil => cases hplace
    | cons i items' => exact hplace
  | case3 t p behind hr hd items' rest' hi ih =>
    obtain ⟨rfl, rfl⟩ := Prod.mk.inj h
    obtain ⟨hnone, hdirection⟩ := ih hi
    refine ⟨hnone, fun hplace ↦ ?_⟩
    cases items' with
    | nil =>
      have heq := eq_of_readAll hi
      rw [List.flatMap_nil, List.nil_append] at heq
      rwa [← heq]
    | cons i items' => exact hdirection hplace

end OrderItem

namespace Closing

variable {s : Schema} {policy : DirectionPolicy} {t : Text}

private theorem residue_notMem_words_placeAfter (g : Grammar) {items : List OrderItem}
    {behind rest : Text} (h : OrderItem.readAll s behind = (items, rest)) :
    rest ∉ (OrderItem.placeAfter items).words g s := by
  obtain ⟨hnone, hdirection⟩ := OrderItem.end_readAll h
  have hid : rest ∉ s.identifiers := by
    intro hmem
    obtain ⟨p, hp, rfl⟩ := List.mem_map.mp hmem
    exact Schema.headProperty?_eq_none_iff.mp hnone p hp List.prefix_rfl
  cases hplace : OrderItem.placeAfter items with
  | orderProperty =>
    intro hmem
    rcases List.mem_append.mp hmem with hword | hrest
    · obtain ⟨d, hd, hword⟩ := List.mem_map.mp hword
      exact Keyword.ne_of_readLongest?_eq_none (hdirection hplace) hd hword.symm
    · split at hrest
      · cases hrest
      · exact hid hrest
  | orderStart => exact hid
  | orderDirection => exact hid
  | _ =>
    rw [OrderItem.placeAfter] at hplace
    split at hplace
    · cases hplace
    · split at hplace <;> cases hplace

/-- What is left behind the criteria is none of the words that may stand there. -/
theorem residue_notMem_words (g : Grammar) (policy : DirectionPolicy) (s : Schema) (t : Text) :
    (read policy s t).2.2.residue ∉ (read policy s t).2.2.place.words g s := by
  rw [edge_read]
  split
  · next hnone =>
    intro hmem
    have hword : (CaseMarker.readAll t).2 = Word.orderBy := List.mem_singleton.mp hmem
    rw [hword, Keyword.read?_self] at hnone
    cases hnone
  · next behind _ =>
    exact residue_notMem_words_placeAfter g (Prod.eta (OrderItem.readAll s behind)).symm

end Closing

end QueryNames
