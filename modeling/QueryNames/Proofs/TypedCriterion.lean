import QueryNames.Proofs.Accounting
import QueryNames.Proofs.Growth
import QueryNames.Proofs.PlainSchema

/-!
# Typing a criterion

How reading a criterion changes while a word behind it is typed. What has been typed of the word may
be a shorter operator already, such as `Not` of `NotNull`; the rest of the word then completes it. It
may also be `Or` of `OrderBy`. Nothing else can happen, as the tables of words show.
-/

namespace QueryNames

open Text

namespace Operator

/-- The words that complete a keyword or nothing to a keyword. -/
def tails : List Text := ([] :: keywords).flatMap fun u ↦ keywords.filterMap u.isPrefixOf?

/-- What completes one spelling to another is in the table of tails. -/
theorem mem_tails {u v : Text} (hu : u = [] ∨ u ∈ keywords) (huv : u ++ v ∈ keywords) :
    v ∈ tails := by
  refine List.mem_flatMap.mpr ⟨u, List.mem_cons.mpr hu, ?_⟩
  exact List.mem_filterMap.mpr ⟨u ++ v, huv, isPrefixOf?_append u v⟩

end Operator

namespace Criterion

/-- The words that may stand behind the operator of a criterion, with or without a marker before
them. -/
def closers : List Text :=
  CaseMarker.all.map CaseMarker.word ++ Conjunction.all.map Conjunction.word ++
    CaseMarker.all.map CaseMarker.allWord ++ [Word.orderBy]

private theorem checked_followers :
    ∀ w ∈ Operator.tails ++ closers, Opens w ∧ w.all isNameChar = true ∧
      (∀ m ∈ CaseMarker.all, ¬m.word <:+: w.dropLast) ∧ ¬Word.orderBy <:+: w.dropLast ∧
      (∀ k ∈ Terminator.all, ∀ v ∈ k.word.tail.tails, v ≠ [] → v <+: w → v = w) ∧
      (w = Word.orderBy ∨ ∀ k ∈ Terminator.all, ¬k.word <:+: w.dropLast) := by
  decide +kernel

private theorem checked_closers :
    ∀ v ∈ Operator.tails, v ≠ [] → ∀ w ∈ closers, ¬v <+: w := by
  decide +kernel

private theorem checked_orderBy :
    (∀ x ∈ Word.orderBy.dropLast.inits, x = Conjunction.or.word ∨
      Keyword.splitAtFirst? Terminator.word Terminator.all x = none) ∧
    ∀ w ∈ Operator.tails ++ closers, Conjunction.or.word <+: w → w ≠ Conjunction.or.word →
      w = Word.orderBy := by
  decide +kernel

/-- No other word that may stand behind a property begins with `Or` than `OrderBy`. -/
theorem eq_orderBy_of_follower {w : Text} (hw : w ∈ Operator.tails ++ closers)
    (hor : Conjunction.or.word <+: w) (hne : Conjunction.or.word ≠ w) : w = Word.orderBy :=
  checked_orderBy.2 w hw hor hne.symm

section Follower

variable {w x : Text} (hw : w ∈ Operator.tails ++ closers) (hx : x <+: w) (hne : x ≠ w)

include hw in
/-- A word that may stand behind a property opens. -/
theorem opens_of_follower : Opens w := (checked_followers w hw).1

include hw in
/-- A word that may stand behind a property consists of name characters. -/
theorem all_isNameChar_of_follower : w.all isNameChar = true := (checked_followers w hw).2.1

include hw hx hne

/-- No word that ends a criterion enters what has been typed of a word that may stand behind a
property. -/
theorem isBorder_of_follower : Terminator.IsBorder x := by
  intro k v hv hnil hpre
  obtain rfl := (checked_followers w hw).2.2.2.2.1 k (Terminator.mem_all k) v hv hnil
    (hpre.trans hx)
  exact hne (hx.eq_of_length_le hpre.length_le)

/-- No marker stands in what has been typed of a word that may stand behind a property. -/
theorem lacksMarkers_of_follower : LacksMarkers x := fun m hm ↦
  (checked_followers w hw).2.2.1 m (CaseMarker.mem_all m)
    (hm.trans (prefix_dropLast hx hne).isInfix)

/-- What has been typed of a word that may stand behind a property does not hold `OrderBy`. -/
theorem lacksOrderBy_of_follower : ¬Word.orderBy <:+: x := fun ho ↦
  (checked_followers w hw).2.2.2.1 (ho.trans (prefix_dropLast hx hne).isInfix)

/-- In what has been typed of a word that may stand behind a property no word that ends a criterion
is read but `Or`. -/
theorem splitAtFirst?_of_follower : x = Conjunction.or.word ∨
    Keyword.splitAtFirst? Terminator.word Terminator.all x = none := by
  have hdrop := prefix_dropLast hx hne
  rcases (checked_followers w hw).2.2.2.2.2 with rfl | hlacks
  · exact checked_orderBy.1 x ((List.mem_inits _ _).mpr hdrop)
  · exact Or.inr (Keyword.splitAtFirst?_eq_none_of_lacks fun k hk hin ↦
      hlacks k hk (hin.trans hdrop.isInfix))

end Follower

variable {g : Grammar} {s : Schema} {c : Criterion} {t w x y : Text} {p : Property}

/-- The words that may stand behind the operator of a criterion. A marker is offered only once. -/
def nextClosers (c : Criterion) : List Text :=
  (if c.marker.isSome then [] else CaseMarker.all.map CaseMarker.word) ++
    Conjunction.all.map Conjunction.word ++ CaseMarker.all.map CaseMarker.allWord ++ [Word.orderBy]

/-- A criterion goes on with its operator or with a word that may stand behind that. -/
theorem mem_words_iff : w ∈ (Place.criterion c).words g s ↔ w ∈ c.nextWords ∨ w ∈ c.nextClosers := by
  simp only [Place.words, nextWords, nextClosers, List.mem_append, or_assoc]

private theorem nextClosers_subset (c : Criterion) : c.nextClosers ⊆ closers := by
  rw [nextClosers]
  cases c.marker with
  | none => exact List.Subset.refl _
  | some m =>
    rw [Option.isSome_some, if_pos rfl]
    decide

private theorem exists_property_of_mem_nextWords (hw : w ∈ c.nextWords) :
    ∃ p, c.property = some p := by
  obtain ⟨property, spelling, marker, residue⟩ := c
  cases property with
  | some p => exact ⟨p, rfl⟩
  | none => cases spelling <;> cases hw

/-- What a criterion goes on with may stand behind a property. -/
theorem mem_followers (hw : w ∈ (Place.criterion c).words g s) : w ∈ Operator.tails ++ closers := by
  rw [List.mem_append]
  rcases mem_words_iff.mp hw with hnext | hclose
  · obtain ⟨p, hp⟩ := exists_property_of_mem_nextWords hnext
    obtain ⟨o, -, ho⟩ := exists_suits_of_mem_nextWords hp hnext
    exact Or.inl (Operator.mem_tails c.keyword_eq_nil_or_mem (Operator.mem_keywords_iff.mpr ⟨o, ho⟩))
  · exact Or.inr (nextClosers_subset c hclose)

end Criterion

namespace CaseMarker

variable {t x : Text}

/-- A marker is cut out of a text as before when the text goes on without one. -/
theorem cut_append_right (hx : LacksMarkers x) (hbars : ∀ m : CaseMarker, Bars x m.word) :
    cut (t ++ x) = ((cut t).1, (cut t).2 ++ x) := by
  induction t with
  | nil => exact cut_of_lacksMarkers hx
  | cons c t ih =>
    have hread : read? (c :: (t ++ x)) = (read? (c :: t)).map fun m ↦ (m.1, m.2 ++ x) := by
      cases hr : read? (c :: t) with
      | some m =>
        rw [← List.cons_append, read?_eq_some_iff.mp hr, List.append_assoc]
        exact read?_eq_some_iff.mpr rfl
      | none =>
        refine read?_eq_none_iff.mpr fun m hm ↦ read?_eq_none_iff.mp hr m ?_
        rw [← List.cons_append] at hm
        rcases prefix_append_cases hm with hin | ⟨y, -, hy, -⟩
        · exact hin
        · have := (hbars m).eq (List.cons_ne_nil c t) hm ⟨y, hy.symm⟩
          exact this ▸ List.prefix_rfl
    rw [List.cons_append, cut, hread, cut]
    cases read? (c :: t) with
    | some m => rfl
    | none => simp only [Option.map_none, ih, List.cons_append]

end CaseMarker

namespace Criterion

variable {g : Grammar} {s : Schema} {c : Criterion} {t w x y : Text} {p : Property}

private theorem read?_keyword_append (c : Criterion) (x : Text) :
    Spelling.read? (c.keyword ++ x) = c.spelling.map (·, x) ∨
      ∃ sp e residue, e ≠ [] ∧ sp.keyword = c.keyword ++ e ∧ x = e ++ residue ∧
        Spelling.read? (c.keyword ++ x) = some (sp, residue) := by
  cases hr : Spelling.read? (c.keyword ++ x) with
  | none =>
    left
    cases hsp : c.spelling with
    | none => rfl
    | some sp =>
      have hno := Spelling.read?_eq_none_iff.mp hr sp
      rw [keyword_of_spelling_eq_some hsp] at hno
      exact absurd (List.prefix_append _ x) hno
  | some m =>
    obtain ⟨sp, residue⟩ := m
    obtain ⟨heq, hlongest⟩ := Spelling.read?_eq_some_iff.mp hr
    obtain ⟨e, he⟩ : c.keyword <+: sp.keyword := by
      refine List.prefix_of_prefix_length_le (List.prefix_append _ x) ⟨residue, heq.symm⟩ ?_
      cases hsp : c.spelling with
      | none =>
        rw [keyword_of_spelling_eq_none hsp]
        exact Nat.zero_le _
      | some sp' =>
        rw [keyword_of_spelling_eq_some hsp] at hlongest ⊢
        exact hlongest sp' (List.prefix_append _ x)
    rw [← he, List.append_assoc] at heq
    have hx := List.append_cancel_left heq
    by_cases hnil : e = []
    · left
      rw [hnil, List.append_nil] at he
      rw [hnil, List.nil_append] at hx
      cases hsp : c.spelling with
      | none =>
        rw [keyword_of_spelling_eq_none hsp] at he
        exact absurd he.symm sp.keyword_ne_nil
      | some sp' =>
        rw [keyword_of_spelling_eq_some hsp] at he
        rw [Spelling.eq_of_keyword_eq he, hx]
        rfl
    · exact Or.inr ⟨sp, e, residue, hnil, he.symm, hx, rfl⟩

private theorem ofText_of_cut {marker : Option CaseMarker} {rest : Text} (hs : s.IsPlain)
    (hp : p ∈ s.properties) (hcut : CaseMarker.cut t = (marker, p.identifier ++ rest)) :
    (Spelling.read? rest = none → ofText s t = ⟨some p, none, marker, rest⟩) ∧
      ∀ sp residue, Spelling.read? rest = some (sp, residue) →
        ofText s t = ⟨some p, some sp, marker, residue⟩ := by
  have hhead := hs.isPrefixFree.headProperty?_append hp rest
  constructor
  · intro hnone
    simp only [ofText, hcut, hhead, hnone]
  · intro sp residue hsome
    simp only [ofText, hcut, hhead, hsome]

/-- Where a criterion goes on with what has been typed of a word that may follow it, that is left
over, or a beginning of it makes the operator longer. -/
theorem ofText_append (hs : s.IsPlain) (h : (ofText s t).IsDeclared s)
    (hw : w ∈ Operator.tails ++ closers) (hx : x <+: w) (hne : x ≠ w) :
    ofText s (t ++ x) = { ofText s t with residue := x } ∨
      ∃ sp e residue, e ≠ [] ∧ sp.keyword = (ofText s t).keyword ++ e ∧ x = e ++ residue ∧
        ofText s (t ++ x) = { ofText s t with spelling := some sp, residue := residue } := by
  obtain ⟨p, hmem, hp⟩ := h.property_mem
  obtain ⟨-, hcut⟩ := cut_of_property_eq_some hp
  have hborder := isBorder_of_follower hw hx hne
  have hcut' : CaseMarker.cut (t ++ x) =
      ((ofText s t).marker, p.identifier ++ ((ofText s t).keyword ++ x)) := by
    rw [CaseMarker.cut_append_right (lacksMarkers_of_follower hw hx hne) hborder.bars_marker, hcut,
      h.residue_eq_nil, List.append_nil, List.append_assoc]
  obtain ⟨hnone, hsome⟩ := ofText_of_cut hs hmem hcut'
  rcases read?_keyword_append (ofText s t) x with hsame | ⟨sp, e, residue, hnil, hkey, hxe, hlonger⟩
  · left
    cases hsp : (ofText s t).spelling with
    | none =>
      rw [hsp, Option.map_none] at hsame
      simp only [hnone hsame, keyword_of_spelling_eq_none hsp, hp, hsp, List.nil_append]
    | some sp =>
      rw [hsp, Option.map_some] at hsame
      simp only [hsome _ _ hsame, hp, hsp]
  · right
    refine ⟨sp, e, residue, hnil, hkey, hxe, ?_⟩
    simp only [hsome _ _ hlonger, hp]

/-- A criterion that goes on with what has been typed of a word that it offers still offers the rest
of the word. The beginning of the word may have become part of the operator. -/
theorem exists_mem_words_append (hs : s.IsPlain) (h : (ofText s t).IsDeclared s)
    (hw : w ∈ (Place.criterion (ofText s t)).words g s) (hx : x <+: w) (hne : x ≠ w) :
    (ofText s (t ++ x)).property.isSome = true ∧
      ∃ e, x = e ++ (ofText s (t ++ x)).residue ∧
        ∃ w' ∈ (Place.criterion (ofText s (t ++ x))).words g s, w = e ++ w' := by
  obtain ⟨p, -, hp⟩ := h.property_mem
  have hfollower := mem_followers hw
  rcases ofText_append hs h hfollower hx hne with heq | ⟨sp, e, residue, hnil, hkey, hxe, heq⟩
  · rw [heq]
    exact ⟨by rw [hp]; rfl, [], rfl, w, hw, rfl⟩
  · rw [heq]
    have hpre : e <+: w := (hxe ▸ List.prefix_append e residue : e <+: x).trans hx
    refine ⟨by rw [hp]; rfl, e, hxe, ?_⟩
    have htail : e ∈ Operator.tails :=
      Operator.mem_tails (ofText s t).keyword_eq_nil_or_mem (hkey ▸ sp.keyword_mem_keywords)
    obtain ⟨w', rfl⟩ := hpre
    refine ⟨w', mem_words_iff.mpr (Or.inl ?_), rfl⟩
    have hnext : e ++ w' ∈ (ofText s t).nextWords := by
      refine (mem_words_iff.mp hw).resolve_right fun hclose ↦ ?_
      exact checked_closers e htail hnil _ (nextClosers_subset _ hclose) (List.prefix_append e w')
    obtain ⟨o, hsuits, ho⟩ := exists_suits_of_mem_nextWords hp hnext
    rw [← List.append_assoc, ← hkey] at ho
    refine mem_nextWords_of_append hp rfl (Operator.mem_spellingsSuiting_iff.mpr ⟨o, hsuits, ho⟩) ?_
    rintro rfl
    rw [List.append_nil] at hx hne
    exact hne (hx.eq_of_length_le (hxe ▸ (List.prefix_append e residue).length_le))

/-- A criterion without the end that could not be read is understood, and is the same otherwise. -/
theorem ofText_of_append (hs : s.IsPlain) (hp : (ofText s (t ++ y)).property = some p)
    (hy : (ofText s (t ++ y)).residue = y) (hlacks : LacksMarkers y)
    (hbars : ∀ m : CaseMarker, Bars y m.word) :
    ofText s t = { ofText s (t ++ y) with residue := [] } := by
  obtain ⟨hmem, hcut⟩ := cut_of_property_eq_some hp
  rw [CaseMarker.cut_append_right hlacks hbars, hy, ← List.append_assoc] at hcut
  obtain ⟨hmarker, hwords⟩ := Prod.mk.inj hcut
  have hcut' : CaseMarker.cut t =
      ((ofText s (t ++ y)).marker, p.identifier ++ (ofText s (t ++ y)).keyword) :=
    Prod.ext hmarker (List.append_cancel_right hwords)
  obtain ⟨hnone, hsome⟩ := ofText_of_cut hs hmem hcut'
  have hread := read?_keyword (ofText s (t ++ y))
  cases hsp : (ofText s (t ++ y)).spelling with
  | none =>
    rw [hsp, Option.map_none] at hread
    simp only [hnone hread, keyword_of_spelling_eq_none hsp, hp, hsp]
  | some sp =>
    rw [hsp, Option.map_some] at hread
    simp only [hsome _ _ hread, hp, hsp]

/-- What a criterion could not read is no longer than its text. -/
theorem length_residue_le (hp : (ofText s t).property = some p) :
    (ofText s t).residue.length ≤ t.length := by
  obtain ⟨-, hcut⟩ := cut_of_property_eq_some hp
  have hlen : (CaseMarker.cut t).2.length ≤ t.length := by
    cases hc : CaseMarker.cut t with
    | mk marker words =>
      cases marker with
      | none => rw [CaseMarker.eq_of_cut_none hc]
      | some m =>
        obtain ⟨before, behind, ht, hrest⟩ := CaseMarker.eq_of_cut hc
        simp only [ht, hrest, List.length_append]
        omega
  rw [hcut, List.length_append, List.length_append] at hlen
  omega

/-- A criterion without a defect is written in full with a declared property. -/
theorem isDeclared_of_defect? (h : Predicate.defect? s t = none) : (ofText s t).IsDeclared s := by
  obtain ⟨hp, hresidue⟩ := Predicate.defect?_eq_none_iff.mp h
  obtain ⟨p, hp⟩ := Option.isSome_iff_exists.mp hp
  exact ⟨⟨p, (cut_of_property_eq_some hp).1, hp⟩, hresidue⟩

/-- No identifier reaches beyond a criterion that is understood if none begins another or contains a
marker. -/
theorem IsDeclared.fits (hs : s.IsPrefixFree) (hlacks : ∀ p ∈ s.properties, p.LacksMarkers)
    (h : (ofText s t).IsDeclared s) (y : Text) : s.Fits t y := by
  obtain ⟨p, hmem, hp⟩ := h.property_mem
  obtain ⟨-, hcut⟩ := cut_of_property_eq_some hp
  cases hm : (ofText s t).marker with
  | none =>
    rw [hm] at hcut
    rw [← CaseMarker.eq_of_cut_none hcut]
    exact hs.fits hmem _ y
  | some m =>
    rw [hm] at hcut
    obtain ⟨before, behind, ht, -⟩ := CaseMarker.eq_of_cut hcut
    intro q hq hpre
    rcases prefix_append_cases hpre with hin | ⟨z, -, hz, -⟩
    · exact hin.length_le
    · refine absurd ?_ (hlacks q hq m)
      rw [hz, ht]
      exact ⟨before, behind ++ z, by simp only [List.append_assoc]⟩

end Criterion

namespace Predicate

variable {g : Grammar} {s : Schema} {t w x y : Text}

/-- A criterion that nothing ends is not ended in front of an end that opens. -/
theorem splitCriterion_of_append (h : splitCriterion s (t ++ y) = (t ++ y, none))
    (hfits : s.Fits t y) (hy : Opens y) : splitCriterion s t = (t, none) := by
  rw [splitCriterion_eq_self_iff, Keyword.splitAtFirst?_eq_none_iff] at h ⊢
  rw [hfits.behindHead_append] at h
  intro a b hab hb
  have hnone := h a (b ++ y) (by rw [hab, List.append_assoc])
    (List.append_ne_nil_of_left_ne_nil hb y)
  rw [Keyword.readLongest?_eq_none_iff] at hnone ⊢
  intro k hk
  cases hr : Keyword.read? k.word b with
  | none => rfl
  | some d =>
    obtain ⟨rfl, hd⟩ := (Keyword.read?_eq_some_iff_opens (Terminator.endsInLetter_word k)).mp hr
    have hread := hnone k hk
    rw [List.append_assoc,
      Keyword.read?_append (Terminator.endsInLetter_word k) (hd.append hy)] at hread
    cases hread

/-- Where a criterion goes on with what has been typed of a word that may follow it, nothing ends it,
unless that is `Or`. -/
theorem chain_append_follower (hs : s.IsPlain) (h : splitCriterion s t = (t, none))
    (hc : (Criterion.ofText s t).IsDeclared s) (hw : w ∈ Operator.tails ++ Criterion.closers)
    (hx : x <+: w) (hne : x ≠ w) :
    chain s (t ++ x) = ⟨[(t, .or)], [], []⟩ ∧ x = Conjunction.or.word ∨
      chain s (t ++ x) = ⟨[], t ++ x, []⟩ := by
  have hfits := hc.fits hs.isPrefixFree (fun q hq ↦ (hs.property q hq).lacksMarkers) x
  have hsplit := splitCriterion_append h hfits (Criterion.isBorder_of_follower hw hx hne)
  rcases Criterion.splitAtFirst?_of_follower hw hx hne with rfl | hnone
  · left
    have hor : Keyword.splitAtFirst? Terminator.word Terminator.all Conjunction.or.word =
        some ([], .join .or, []) := by
      decide
    rw [hor] at hsplit
    simp only [List.append_nil] at hsplit
    rw [chain_of_join hsplit, chain_nil]
    exact ⟨rfl, rfl⟩
  · right
    rw [hnone] at hsplit
    exact chain_of_none hsplit

end Predicate

end QueryNames
