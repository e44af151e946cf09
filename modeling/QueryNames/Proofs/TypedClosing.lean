import QueryNames.Proofs.PlainSchema
import QueryNames.Proofs.ValidName

/-!
# Typing what stands behind the criteria

How reading the markers and the sort keys changes when their text goes on. What has been read stays
as it is, and the residue grows as long as it is no complete word.
-/

namespace QueryNames

open Text

namespace CaseMarker

variable {t rest y : Text} {markers : List CaseMarker}

/-- The markers for all criteria are read as before when what stands behind them goes on without
one. -/
theorem readAll_append (h : readAll t = (markers, rest)) (hy : Opens (rest ++ y))
    (hnone : Keyword.readLongest? allWord all (rest ++ y) = none) :
    readAll (t ++ y) = (markers, rest ++ y) := by
  fun_induction readAll t generalizing markers rest with
  | case1 t hr =>
    obtain ⟨rfl, rfl⟩ := Prod.mk.inj h
    exact readAll_of_none hnone
  | case2 t m behind hr markers' rest' hi ih =>
    obtain ⟨rfl, rfl⟩ := Prod.mk.inj h
    have hb := ((Keyword.read?_eq_some_iff_opens m.endsInLetter_allWord).mp (of_longest? hr).2).2
    have hopen : Opens (behind ++ y) := by
      refine hb.append_of_nil ?_
      rintro rfl
      rw [readAll_nil] at hi
      rw [← (Prod.mk.inj hi).2] at hy
      exact hy
    rw [Keyword.eq_of_readLongest? hr, List.append_assoc,
      readAll_of_some (m.readLongest?_allWord_append hopen), ih hi hy hnone]

end CaseMarker

namespace OrderItem

variable {s : Schema} {t rest y : Text} {items : List OrderItem}

private theorem opens_append_of_readAll (h : readAll s t = (items, rest))
    (hx : s.IsUnfinished (rest ++ y)) (ht : Opens t) : Opens (t ++ y) := by
  refine ht.append_of_nil ?_
  rintro rfl
  rw [readAll_of_none s.headProperty?_nil] at h
  rw [← (Prod.mk.inj h).2] at hx
  exact hx.opens

private theorem readLongest?_direction_append (hs : s.IsPlain) (h : readAll s t = (items, rest))
    (hx : s.IsUnfinished (rest ++ y)) :
    Keyword.readLongest? Direction.word Direction.all (t ++ y) = none := by
  refine Keyword.readLongest?_eq_none_iff.mpr fun d _ ↦ ?_
  have hrival : d.word ∈ Property.rivals := by cases d <;> decide
  apply Keyword.read?_eq_none_of_not_prefix
  cases hh : s.headProperty? t with
  | none =>
    rw [readAll_of_none hh] at h
    rw [(Prod.mk.inj h).2]
    exact hx.not_prefix hs hrival
  | some m =>
    obtain ⟨hp, ht⟩ := Schema.eq_of_headProperty? hh
    rw [ht, List.append_assoc]
    exact (hs.property m.1 hp).not_prefix_append hrival _

/-- The sort keys are read as before when what stands behind them goes on without becoming a
complete word. -/
theorem readAll_append (hs : s.IsPlain) (h : readAll s t = (items, rest))
    (hx : s.IsUnfinished (rest ++ y)) : readAll s (t ++ y) = (items, rest ++ y) := by
  fun_induction readAll s t generalizing items rest with
  | case1 t hr =>
    obtain ⟨rfl, rfl⟩ := Prod.mk.inj h
    exact readAll_of_none (hx.headProperty?_eq_none hs)
  | case2 t p behind hr d behind' hd items' rest' hi ih =>
    obtain ⟨rfl, rfl⟩ := Prod.mk.inj h
    obtain ⟨hp, rfl⟩ := Schema.eq_of_headProperty? hr
    obtain ⟨rfl, hb⟩ := (Keyword.read?_eq_some_iff_opens
      (endsInLetter_of_isCapitalWord d.isCapitalWord_word)).mp (of_longest? hd).2
    have hhead := hs.isPrefixFree.headProperty?_append hp (d.word ++ (behind' ++ y))
    have hdirection := d.readLongest?_append (opens_append_of_readAll hi hx hb)
    rw [List.append_assoc, List.append_assoc, readAll_of_direction hhead hdirection, ih hi hx]
  | case3 t p behind hr hd items' rest' hi ih =>
    obtain ⟨rfl, rfl⟩ := Prod.mk.inj h
    obtain ⟨hp, rfl⟩ := Schema.eq_of_headProperty? hr
    have hhead := hs.isPrefixFree.headProperty?_append hp (behind ++ y)
    have hnone := readLongest?_direction_append hs hi hx
    rw [List.append_assoc, readAll_of_no_direction hhead hnone, ih hi hx]

/-- Behind sort keys is not behind a marker for all criteria. -/
theorem placeAfter_ne (items : List OrderItem) : placeAfter items ≠ .allIgnoreCase := by
  rw [placeAfter]
  split
  · nofun
  · split <;> nofun

/-- What stands behind the sort keys ends the text. -/
theorem rest_suffix (s : Schema) (t : Text) : (readAll s t).2 <:+ t :=
  ⟨_, (eq_of_readAll (Prod.eta (readAll s t)).symm).symm⟩

end OrderItem

namespace Closing

variable {s : Schema} {policy : DirectionPolicy} {t y : Text} {w : Terminator}

/-- The closing section breaks off behind the markers for all criteria unless `OrderBy` follows
them, and behind the sort keys if it does. -/
theorem edge_read (policy : DirectionPolicy) (s : Schema) (t : Text) :
    (read policy s t).2.2 =
      match Keyword.read? Word.orderBy (CaseMarker.readAll t).2 with
      | none => ⟨.allIgnoreCase, (CaseMarker.readAll t).2⟩
      | some behind =>
        ⟨OrderItem.placeAfter (OrderItem.readAll s behind).1, (OrderItem.readAll s behind).2⟩ := by
  simp only [read]
  split
  · next h =>
    rw [h.2]
    rfl
  · cases Keyword.read? Word.orderBy (CaseMarker.readAll t).2 <;> rfl

/-- The residue of the closing section ends the text. -/
theorem residue_suffix (policy : DirectionPolicy) (s : Schema) (t : Text) :
    (read policy s t).2.2.residue <:+ t := by
  have hrest : (CaseMarker.readAll t).2 <:+ t :=
    ⟨_, (CaseMarker.eq_of_readAll (Prod.eta (CaseMarker.readAll t)).symm).symm⟩
  rw [edge_read]
  split
  · exact hrest
  · next behind hr =>
    have hbehind : behind <:+ (CaseMarker.readAll t).2 :=
      ⟨Word.orderBy, (Keyword.read?_eq_some_iff.mp hr).1.symm⟩
    exact (OrderItem.rest_suffix s behind).trans (hbehind.trans hrest)

/-- Behind the word that opens the closing section nothing is left to be read. -/
theorem residue_read_word (hw : ∀ k, w ≠ .join k) : (read policy s w.word).2.2.residue = [] := by
  cases w with
  | join k => exact absurd rfl (hw k)
  | marker m => exact congrArg (·.2.2.residue) (read_marker m)
  | order =>
    have hmarkers := CaseMarker.readAll_orderBy_append []
    rw [List.append_nil] at hmarkers
    simp only [edge_read, Terminator.word, hmarkers, Keyword.read?_self,
      OrderItem.readAll_of_none s.headProperty?_nil]

/-- What has been typed at the end of the closing section: the beginning of `OrderBy` behind a marker
for all criteria, and elsewhere that of a property or of a word in its place. -/
def IsTyped (s : Schema) (place : Place) (x : Text) : Prop :=
  if place = .allIgnoreCase then x <+: Word.orderBy ∧ x ≠ Word.orderBy else s.IsUnfinished x

/-- What has been typed at the end of the closing section opens. It does not hold `OrderBy`, and the
word cannot enter it from before. -/
theorem IsTyped.bars_orderBy (hs : s.IsPlain) {place : Place} {x : Text} (h : IsTyped s place x) :
    Opens x ∧ Bars x Word.orderBy ∧ ¬Word.orderBy <:+: x := by
  rw [IsTyped] at h
  split at h
  · obtain ⟨hx, hne⟩ := h
    have hself : Bars Word.orderBy Word.orderBy := by decide
    exact ⟨Opens.of_isPrefix (by decide) hx, hself.of_isPrefix hx,
      fun ho ↦ hne (hx.eq_of_length_le ho.length_le)⟩
  · have hby : Word.introducer <:+: Word.orderBy := by decide
    exact ⟨h.opens, Word.bars_orderBy h.opens (h.not_prefix hs List.mem_cons_self),
      fun ho ↦ h.lacksIntroducer hs (hby.trans ho)⟩

/-- The closing section breaks off at the same place while a word is typed there. -/
theorem edge_read_append (hs : s.IsPlain)
    (hx : IsTyped s (read policy s t).2.2.place ((read policy s t).2.2.residue ++ y)) :
    (read policy s (t ++ y)).2.2 =
      ⟨(read policy s t).2.2.place, (read policy s t).2.2.residue ++ y⟩ := by
  rw [edge_read] at hx ⊢
  rw [edge_read]
  cases hm : CaseMarker.readAll t with
  | mk markers rest =>
  rw [hm] at hx
  cases hr : Keyword.read? Word.orderBy rest with
  | none =>
    simp only [hr, IsTyped, if_true] at hx ⊢
    obtain ⟨hpre, hne⟩ := hx
    have hopen : Opens (rest ++ y) := Opens.of_isPrefix (by decide) hpre
    have hnone : Keyword.readLongest? CaseMarker.allWord CaseMarker.all (rest ++ y) = none := by
      refine Keyword.readLongest?_eq_none_iff.mpr fun m _ ↦ ?_
      have hno : ¬m.allWord <+: Word.orderBy := by cases m <;> decide
      exact Keyword.read?_eq_none_of_not_prefix fun hm ↦ hno (hm.trans hpre)
    have hread : Keyword.read? Word.orderBy (rest ++ y) = none :=
      Keyword.read?_eq_none_of_not_prefix fun ho ↦ hne (hpre.eq_of_length_le ho.length_le)
    simp only [CaseMarker.readAll_append hm hopen hnone, hread]
  | some behind =>
    simp only [hr, IsTyped, if_neg (OrderItem.placeAfter_ne _)] at hx ⊢
    obtain ⟨rfl, hb⟩ := (Keyword.read?_eq_some_iff_opens (by decide)).mp hr
    have hitems := (Prod.eta (OrderItem.readAll s behind)).symm
    have hopen := OrderItem.opens_append_of_readAll hitems hx hb
    have hmarkers := CaseMarker.readAll_append (y := y) hm
      (Terminator.opens_word_append .order (behind ++ y))
      (CaseMarker.readLongest?_orderBy_append (behind ++ y))
    have hread := Keyword.read?_append (k := Word.orderBy) (by decide) hopen
    rw [List.append_assoc] at hmarkers
    simp only [hmarkers, hread, OrderItem.readAll_append hs hitems hx]

end Closing

end QueryNames
