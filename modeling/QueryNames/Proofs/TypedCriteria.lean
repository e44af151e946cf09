import QueryNames.Proofs.BrokenCriteria
import QueryNames.Proofs.TypedCriterion

/-!
# Typing criteria

How reading the criteria changes when their text goes on. All criteria but the last stay as they
are. The last one grows as long as what follows it is no complete word, and what follows the
criteria goes on once it has begun. An option that is offered in between stays one, with one
exception: behind `Or` the rest of `OrderBy` is lost if the criterion before it is not understood.
-/

namespace QueryNames

open Text

/-- At its edge a text offers what a word of the place makes of it. -/
def Edge.Offers (g : Grammar) (s : Schema) (e : Edge) (t o : Text) : Prop :=
  ∃ stem w, t = stem ++ e.residue ∧ w ∈ e.place.words g s ∧ e.residue <+: w ∧ o = stem ++ w

namespace Predicate

/-- The text of criteria that conjunctions follow. -/
def joinedText (joined : List (Text × Conjunction)) : Text := joined.flatMap fun m ↦ m.1 ++ m.2.word

variable {g : Grammar} {s : Schema} {t u w last tail x y : Text}
  {front joined : List (Text × Conjunction)} {m : Chain} {e : Edge}

/-- A chain is its joined criteria, its last criterion and its tail. -/
theorem Chain.text_eq (m : Chain) : m.text = joinedText m.joined ++ (m.last ++ m.tail) :=
  List.append_assoc _ _ _

/-- The text of joined criteria begins with the first one and its conjunction. -/
theorem joinedText_cons_append (f : Text) (c : Conjunction) (joined : List (Text × Conjunction))
    (y : Text) :
    joinedText ((f, c) :: joined) ++ y =
      f ++ ((Terminator.join c).word ++ (joinedText joined ++ y)) := by
  simp only [joinedText, List.flatMap_cons, List.append_assoc, Terminator.word]

/-- What stands behind the first criteria of a chain is a chain of its own. It opens if there are
any. -/
theorem exists_chain_rest (h : chain s t = ⟨front ++ joined, last, tail⟩) :
    ∃ rest, t = joinedText front ++ rest ∧ chain s rest = ⟨joined, last, tail⟩ ∧
      (front ≠ [] → Opens rest) := by
  induction front generalizing t with
  | nil => exact ⟨t, rfl, h, fun hne ↦ absurd rfl hne⟩
  | cons x front ih =>
    obtain ⟨f, c⟩ := x
    obtain ⟨behind, hsplit, hbehind⟩ := chain_eq_cons_iff.mp h
    obtain ⟨rest, heq, hrest, hopen⟩ := ih hbehind
    refine ⟨rest, ?_, hrest, fun _ ↦ ?_⟩
    · rw [eq_of_splitCriterion hsplit, heq, joinedText_cons_append, List.append_assoc]
    · cases front with
      | nil =>
        obtain rfl : behind = rest := heq
        exact opens_of_splitCriterion hsplit
      | cons x front => exact hopen (List.cons_ne_nil x front)

/-- Behind the first conjunction of a chain a text that opens stands. -/
theorem opens_joinedText_tail {f : Text} {c : Conjunction}
    (h : chain s t = ⟨(f, c) :: (front ++ joined), last, tail⟩) : Opens (joinedText front) := by
  obtain ⟨behind, hsplit, hbehind⟩ := chain_eq_cons_iff.mp h
  obtain ⟨rest, heq, -⟩ := exists_chain_rest hbehind
  exact (opens_of_splitCriterion hsplit).of_isPrefix (heq ▸ List.prefix_append _ rest)

/-- The first criteria of a chain stay as they are, whatever opens behind them, unless an identifier
reaches beyond one of them. -/
theorem chain_joinedText_append_of_fits (h : chain s t = ⟨front ++ joined, last, tail⟩)
    (hfits : ∀ m ∈ front, ∀ y, s.Fits m.1 ((Terminator.join m.2).word ++ y))
    (hy : front ≠ [] → Opens y) :
    chain s (joinedText front ++ y) =
      ⟨front ++ (chain s y).joined, (chain s y).last, (chain s y).tail⟩ := by
  induction front generalizing t with
  | nil => rfl
  | cons x front ih =>
    obtain ⟨f, c⟩ := x
    obtain ⟨behind, hsplit, hbehind⟩ := chain_eq_cons_iff.mp h
    obtain ⟨hfit, hfits⟩ := List.forall_mem_cons.mp hfits
    have hopen : Opens y := hy (List.cons_ne_nil _ _)
    have hcut := splitCriterion_append_word (splitCriterion_self hsplit)
      ((opens_joinedText_tail h).append hopen) (hfit _)
    rw [joinedText_cons_append, chain_of_join hcut, ih hbehind hfits fun _ ↦ hopen]
    rfl

private theorem fits_front (hs : s.IsPlain) (h : chain s t = ⟨front ++ joined, last, tail⟩) :
    ∀ m ∈ front, ∀ y, s.Fits m.1 ((Terminator.join m.2).word ++ y) := by
  induction front generalizing t with
  | nil => exact List.forall_mem_nil _
  | cons x front ih =>
    obtain ⟨behind, hsplit, hbehind⟩ := chain_eq_cons_iff.mp h
    exact List.forall_mem_cons.mpr ⟨fits_word_append hs hsplit, ih hbehind⟩

/-- The first criteria of a chain stay as they are in a plain schema, whatever opens behind them. -/
theorem chain_joinedText_append (hs : s.IsPlain) (h : chain s t = ⟨front ++ joined, last, tail⟩)
    (hy : front ≠ [] → Opens y) :
    chain s (joinedText front ++ y) =
      ⟨front ++ (chain s y).joined, (chain s y).last, (chain s y).tail⟩ :=
  chain_joinedText_append_of_fits h (fits_front hs h) hy

/-- Where something follows the criteria, only that goes on. -/
theorem chain_append_of_tail (hs : s.IsPlain) (h : chain s t = ⟨joined, last, tail⟩)
    (hne : tail ≠ [])
    (hy : ∀ (w : Terminator) (behind : Text), (∀ k, w ≠ .join k) → tail = w.word ++ behind →
      Opens behind → Opens (behind ++ y)) :
    chain s (t ++ y) = ⟨joined, last, tail ++ y⟩ := by
  rw [← List.append_nil joined] at h
  obtain ⟨rest, rfl, hrest, hopen⟩ := exists_chain_rest h
  rcases chain_eq_nil_iff.mp hrest with ⟨-, hnil⟩ | ⟨w, behind, hsplit, hw, htail⟩
  · exact absurd hnil hne
  · have hcut := splitCriterion_append_word (splitCriterion_self hsplit)
      (hy w behind hw htail (opens_of_splitCriterion hsplit)) (fits_word_append hs hsplit _)
    have hrest' : chain s (rest ++ y) = ⟨[], last, tail ++ y⟩ := by
      rw [eq_of_splitCriterion hsplit, htail]
      simp only [List.append_assoc]
      exact chain_of_word hcut hw
    have hne' : rest ≠ [] := by
      rintro rfl
      rw [chain_nil] at hrest
      exact hne (Chain.mk.inj hrest).2.2.symm
    rw [List.append_assoc, chain_joinedText_append hs h fun hf ↦
      (opens_append_of_ne_nil hne').mpr (hopen hf), hrest', List.append_nil]

/-- A criterion stands in front of every conjunction of a chain that can be read. -/
theorem Chain.joined_ne_nil (h : m.emptyBranch? = none) : ∀ f ∈ m.joined, f.1 ≠ [] := by
  rcases Chain.emptyBranch?_eq_none_iff.mp h with hfilled | hnil
  · exact hfilled.joined
  · rw [hnil]
    exact List.forall_mem_nil _

/-- A chain without a tail can be read if a criterion stands in front of every conjunction. -/
theorem Chain.emptyBranch?_of_joined (hj : ∀ f ∈ m.joined, f.1 ≠ []) (ht : m.tail = []) :
    m.emptyBranch? = none :=
  Chain.emptyBranch?_eq_none_iff.mpr (Or.inl ⟨hj, fun _ ↦ ht⟩)

/-- A name breaks off in its last criterion if that has a property. -/
theorem next_of_property (ht : m.tail = [])
    (hp : (Criterion.ofText s m.last).property.isSome = true) :
    next s m = .stop ⟨.criterion (Criterion.ofText s m.last),
      (Criterion.ofText s m.last).residue⟩ := by
  simp only [next, ht, ne_eq, not_true, if_false, hp, if_true]

/-- A name breaks off where its last criterion begins if that has no property. -/
theorem next_of_no_property (ht : m.tail = [])
    (hp : (Criterion.ofText s m.last).property.isSome = false) :
    next s m = .stop ⟨.criterionStart (m.lastConjunction? == some .or), m.last⟩ := by
  simp only [next, ht, ne_eq, not_true, if_false, hp, Bool.false_eq_true]

private theorem exists_offers_criterion (hs : s.IsPlain)
    (h : chain s t = ⟨front ++ joined, last, tail⟩) (hf : ∀ f ∈ front, f.1 ≠ [])
    (hu : splitCriterion s u = (u, none)) (hc : (Criterion.ofText s u).IsDeclared s)
    (hopen : front ≠ [] → Opens u) (hw : w ∈ (Place.criterion (Criterion.ofText s u)).words g s)
    (hx : x <+: w) (hne : x ≠ w) :
    (chain s (joinedText front ++ (u ++ x))).emptyBranch? = none ∧
      ∃ e, next s (chain s (joinedText front ++ (u ++ x))) = .stop e ∧
        e.Offers g s (joinedText front ++ (u ++ x)) (joinedText front ++ (u ++ w)) := by
  obtain ⟨p, -, hp⟩ := hc.property_mem
  have hfollower := Criterion.mem_followers hw
  have hnil : u ≠ [] := by
    rintro rfl
    simp only [Criterion.ofText, CaseMarker.cut, Schema.headProperty?_nil] at hp
    cases hp
  have hchain := chain_joinedText_append hs h (y := u ++ x) fun hne ↦
    (opens_append_of_ne_nil hnil).mpr (hopen hne)
  rcases chain_append_follower hs hu hc hfollower hx hne with ⟨hor, rfl⟩ | hself
  · obtain rfl := Criterion.eq_orderBy_of_follower hfollower hx hne
    rw [hor] at hchain
    have hj : ∀ f ∈ front ++ [(u, Conjunction.or)], f.1 ≠ [] :=
      List.forall_mem_append.mpr ⟨hf, List.forall_mem_singleton.mpr hnil⟩
    rw [hchain]
    refine ⟨Chain.emptyBranch?_of_joined hj rfl, _, next_of_last_eq_nil s rfl rfl, ?_⟩
    have hlast : Chain.lastConjunction? ⟨front ++ [(u, .or)], [], []⟩ = some .or := by
      rw [Chain.lastConjunction?, List.getLast?_concat]
      rfl
    rw [hlast]
    refine ⟨joinedText front ++ (u ++ Conjunction.or.word), "derBy".toList, ?_, ?_, ?_, ?_⟩
    · exact (List.append_nil _).symm
    · exact List.mem_append_right s.identifiers (List.mem_singleton_self _)
    · exact List.nil_prefix
    · simp only [List.append_assoc]
      rfl
  · rw [hself, List.append_nil] at hchain
    obtain ⟨hproperty, v, hxv, w', hw', rfl⟩ := Criterion.exists_mem_words_append hs hc hw hx hne
    rw [hchain]
    refine ⟨Chain.emptyBranch?_of_joined hf rfl, _,
      next_of_property rfl hproperty, joinedText front ++ (u ++ v), w', ?_, hw', ?_, ?_⟩
    · simp only [List.append_assoc]
      rw [← hxv]
    · rw [hxv] at hx
      exact (List.prefix_append_right_inj v).mp hx
    · simp only [List.append_assoc]

/-- A section that can be read has no second order clause, and its chain can be read. -/
theorem eq_of_read {p : Passage Predicate} (h : read s t = .ok p) :
    Keyword.count Word.orderBy t ≤ 1 ∧ (chain s t).emptyBranch? = none ∧
      p.value = ofChain s (chain s t) ∧ p.next = next s (chain s t) := by
  obtain ⟨hempty, rfl⟩ := eq_passage_of_read h
  exact ⟨(exists_read_iff.mp ⟨_, h⟩).1, hempty, rfl, rfl⟩

/-- The last criterion of a chain without a tail is a chain of its own. -/
theorem splitCriterion_last (h : chain s t = ⟨joined, last, []⟩) :
    t = joinedText joined ++ last ∧ splitCriterion s last = (last, none) ∧
      (joined ≠ [] → Opens last) := by
  rw [← List.append_nil joined] at h
  obtain ⟨rest, heq, hrest, hopen⟩ := exists_chain_rest h
  have hlast : rest = last := by
    rw [← Chain.text_chain s rest, hrest]
    exact List.append_nil last
  rw [hlast] at heq hrest hopen
  refine ⟨heq, ?_, hopen⟩
  rcases chain_eq_nil_iff.mp hrest with ⟨hsplit, -⟩ | ⟨w, behind, -, -, htail⟩
  · exact hsplit
  · exact absurd (List.append_eq_nil_iff.mp htail.symm).1 (Terminator.word_ne_nil w)

private theorem next_append_of_start (hs : s.IsPlain) {p : Property} (hp : p ∈ s.properties)
    (h : chain s t = ⟨joined, last, []⟩)
    (hx : last ++ y <+: p.identifier) (hne : last ++ y ≠ p.identifier) :
    chain s (t ++ y) = ⟨joined, last ++ y, []⟩ ∧
      next s ⟨joined, last ++ y, []⟩ =
        .stop ⟨.criterionStart (Chain.lastConjunction? ⟨joined, last, []⟩ == some .or), last ++ y⟩ := by
  have hunfinished : s.IsUnfinished (last ++ y) := Or.inr ⟨p, hp, hx, hne⟩
  have hself : chain s (last ++ y) = ⟨[], last ++ y, []⟩ := by
    refine chain_of_none (splitCriterion_of_lacks fun w hw ↦ ?_)
    exact (hs.property p hp).not_isInfix_word w (hw.trans hx.isInfix)
  have hlacks : LacksMarkers (last ++ y) :=
    LacksMarkers.of_infix (hs.property p hp).lacksMarkers hx.isInfix
  constructor
  · obtain ⟨htext, -⟩ := splitCriterion_last h
    rw [← List.append_nil joined] at h
    rw [htext, List.append_assoc, chain_joinedText_append hs h fun _ ↦ hunfinished.opens, hself,
      List.append_nil]
  · refine next_of_no_property rfl ?_
    simp only [Criterion.ofText, CaseMarker.cut_of_lacksMarkers hlacks,
      hunfinished.headProperty?_eq_none hs, Option.isSome_none]

private theorem exists_read_of_next {stem z : Text}
    (hcount : Keyword.count Word.orderBy (stem ++ z) ≤ 1) (hz : Opens z)
    (hbars : Bars x Word.orderBy) (hlacks : ¬Word.orderBy <:+: x)
    (hempty : (chain s (stem ++ x)).emptyBranch? = none)
    (hnext : next s (chain s (stem ++ x)) = .stop e) :
    ∃ p, read s (stem ++ x) = .ok p ∧ p.next = .stop e := by
  have hle := Keyword.count_append_le (t := stem) (by decide) hbars hlacks hz
  obtain ⟨p, hp⟩ := exists_read_iff.mpr ⟨hle.trans hcount, hempty⟩
  exact ⟨p, hp, (eq_of_read hp).2.2.2.trans hnext⟩

section Stop

variable {p : Passage Predicate} {stem : Text} (hs : s.IsPlain)
  (hcount : Keyword.count Word.orderBy t ≤ 1) (hj : ∀ f ∈ joined, f.1 ≠ [])
  (h : chain s t = ⟨joined, last, []⟩)

include hs hcount hj h

private theorem exists_read_append_of_criterion
    (hp : (Criterion.ofText s last).property.isSome = true)
    (ht : t = stem ++ (Criterion.ofText s last).residue)
    (hw : w ∈ (Place.criterion (Criterion.ofText s last)).words g s)
    (hx : (Criterion.ofText s last).residue ++ y <+: w)
    (hne : (Criterion.ofText s last).residue ++ y ≠ w) :
    ∃ p e, read s (t ++ y) = .ok p ∧ p.next = .stop e ∧ e.Offers g s (t ++ y) (stem ++ w) := by
  obtain ⟨q, hq⟩ := Option.isSome_iff_exists.mp hp
  obtain ⟨htext, hsplit, hopen⟩ := splitCriterion_last h
  obtain ⟨u, z, hlast, hres⟩ : ∃ u z, last = u ++ z ∧ (Criterion.ofText s last).residue = z := by
    obtain ⟨u, hu⟩ := List.suffix_of_suffix_length_le ⟨stem, ht.symm⟩ ⟨_, htext.symm⟩
      (Criterion.length_residue_le hq)
    exact ⟨u, _, hu.symm, rfl⟩
  subst hlast
  rw [hres] at ht hx hne
  have hstem : stem = joinedText joined ++ u := by
    rw [ht, ← List.append_assoc] at htext
    exact List.append_cancel_right htext
  have hfollower := Criterion.mem_followers hw
  have hz : z <+: w := (List.prefix_append z y).trans hx
  have hzne : z ≠ w := by
    rintro rfl
    exact hne (hx.eq_of_length_le (List.prefix_append z y).length_le)
  have hzopen : Opens z := (Criterion.opens_of_follower hfollower).of_isPrefix hz
  -- without its residue the criterion is understood
  have hof := Criterion.ofText_of_append hs hq hres
    (Criterion.lacksMarkers_of_follower hfollower hz hzne)
    (Criterion.isBorder_of_follower hfollower hz hzne).bars_marker
  have hdeclared : (Criterion.ofText s u).IsDeclared s := by
    rw [hof]
    exact ⟨⟨q, (Criterion.cut_of_property_eq_some hq).1, hq⟩, rfl⟩
  have hfits := hdeclared.fits hs.isPrefixFree (fun q hq ↦ (hs.property q hq).lacksMarkers) z
  have hu := splitCriterion_of_append hsplit hfits hzopen
  obtain ⟨hempty, e, hnext, hoffers⟩ := exists_offers_criterion (g := g) (w := w) hs
    ((List.append_nil joined).symm ▸ h) hj hu hdeclared
    (fun hne ↦ (hopen hne).of_isPrefix (List.prefix_append u z)) (hof ▸ hw) hx hne
  have htext' : t ++ y = joinedText joined ++ u ++ (z ++ y) := by
    rw [htext]
    simp only [List.append_assoc]
  rw [← List.append_assoc] at hempty hnext
  rw [← List.append_assoc, ← List.append_assoc (joinedText joined) u w] at hoffers
  rw [htext', hstem]
  rw [htext, ← List.append_assoc] at hcount
  obtain ⟨p, hread, hpnext⟩ := exists_read_of_next hcount hzopen
    (Criterion.isBorder_of_follower hfollower hx hne .order)
    (Criterion.lacksOrderBy_of_follower hfollower hx hne) hempty hnext
  exact ⟨p, e, hread, hpnext, hoffers⟩

private theorem exists_read_append_of_start {q : Property} (hq : q ∈ s.properties)
    (hx : last ++ y <+: q.identifier) (hne : last ++ y ≠ q.identifier) :
    ∃ p, read s (t ++ y) = .ok p ∧
      p.next =
        .stop ⟨.criterionStart (Chain.lastConjunction? ⟨joined, last, []⟩ == some .or), last ++ y⟩ := by
  have hunfinished : s.IsUnfinished (last ++ y) := Or.inr ⟨q, hq, hx, hne⟩
  obtain ⟨htext, -⟩ := splitCriterion_last h
  obtain ⟨hchain, hnext⟩ := next_append_of_start hs hq h hx hne
  have htext' : t ++ y = joinedText joined ++ (last ++ y) := by rw [htext, List.append_assoc]
  rw [htext'] at hchain ⊢
  rw [htext] at hcount
  refine exists_read_of_next hcount (hunfinished.opens.of_isPrefix (List.prefix_append last y))
    (Word.bars_orderBy hunfinished.opens (hunfinished.not_prefix hs List.mem_cons_self)) ?_
    (hchain ▸ Chain.emptyBranch?_of_joined hj rfl) (hchain ▸ hnext)
  intro ho
  have hby : Word.introducer <:+: Word.orderBy := by decide
  exact hunfinished.lacksIntroducer hs (hby.trans ho)

private theorem exists_read_append_of_or {f : Text} (hor : joined = front ++ [(f, .or)])
    (hlast : last = []) (hf : (Criterion.ofText s f).isUnderstood = true)
    (hx : y <+: "derBy".toList) (hne : y ≠ "derBy".toList) :
    ∃ p e, read s (t ++ y) = .ok p ∧ p.next = .stop e ∧
      e.Offers g s (t ++ y) (t ++ "derBy".toList) := by
  have hword : Conjunction.or.word ++ "derBy".toList = Word.orderBy := rfl
  subst hor hlast
  obtain ⟨rest, htext, hrest, hopen⟩ := exists_chain_rest h
  obtain ⟨behind, hsplit, hbehind⟩ := chain_eq_cons_iff.mp hrest
  have hrest' : rest = f ++ Conjunction.or.word := by
    rw [← Chain.text_chain s rest, hrest]
    simp only [Chain.text, List.flatMap_cons, List.flatMap_nil, List.append_nil]
  rw [hrest'] at htext hopen
  -- `OrderBy` takes the place of `Or`, and the criterion in front offers it if it is understood
  have hdeclared : (Criterion.ofText s f).IsDeclared s := by
    rw [Criterion.isUnderstood, Bool.and_eq_true, List.isEmpty_iff] at hf
    obtain ⟨q, hq⟩ := Option.isSome_iff_exists.mp hf.1
    exact ⟨⟨q, (Criterion.cut_of_property_eq_some hq).1, hq⟩, hf.2⟩
  have hw : Word.orderBy ∈ (Place.criterion (Criterion.ofText s f)).words g s :=
    List.mem_append_right _ (List.mem_singleton_self _)
  have hx' : Conjunction.or.word ++ y <+: Word.orderBy := by
    rw [← hword]
    exact (List.prefix_append_right_inj _).mpr hx
  have hne' : Conjunction.or.word ++ y ≠ Word.orderBy := by
    rw [← hword]
    exact fun he ↦ hne (List.append_cancel_left he)
  obtain ⟨hfront, hfne⟩ := List.forall_mem_append.mp hj
  obtain ⟨hempty, e, hnext, hoffers⟩ := exists_offers_criterion (g := g) hs h hfront
    (splitCriterion_self hsplit) hdeclared
    (fun hne ↦ (hopen hne).of_isPrefix (List.prefix_append f _)) hw hx' hne'
  have hfollower := Criterion.mem_followers hw
  have htext' : t ++ y = joinedText front ++ f ++ (Conjunction.or.word ++ y) := by
    rw [htext]
    simp only [List.append_assoc]
  have htext'' : t ++ "derBy".toList = joinedText front ++ f ++ Word.orderBy := by
    rw [htext, ← hword]
    simp only [List.append_assoc]
  rw [← List.append_assoc] at hempty hnext
  rw [← List.append_assoc, ← List.append_assoc (joinedText front) f Word.orderBy] at hoffers
  rw [htext, ← List.append_assoc] at hcount
  rw [htext', htext'']
  obtain ⟨p, hread, hpnext⟩ := exists_read_of_next hcount (by decide)
    (Criterion.isBorder_of_follower hfollower hx' hne' .order)
    (Criterion.lacksOrderBy_of_follower hfollower hx' hne') hempty hnext
  exact ⟨p, e, hread, hpnext, hoffers⟩

end Stop

private theorem exists_joined_eq_concat {c : Conjunction} (h : m.lastConjunction? = some c) :
    ∃ f front, m.joined = front ++ [(f, c)] := by
  obtain ⟨⟨f, c'⟩, hlast, rfl⟩ := Option.map_eq_some_iff.mp h
  obtain ⟨front, hfront⟩ := List.getLast?_eq_some_iff.mp hlast
  exact ⟨f, front, hfront⟩

private theorem getLast?_criteria_ofChain (front : List (Text × Conjunction)) (f : Text)
    (c : Conjunction) :
    (ofChain s ⟨front ++ [(f, c)], [], []⟩).criteria.getLast? = some (Criterion.ofText s f) := by
  rw [ofChain, if_pos rfl, criteria, flatten_branches, Option.toList_none, List.append_nil,
    List.map_append, List.map_append]
  exact List.getLast?_concat

/-- What is offered where the criteria break off stays offered while it is typed. The rest of
`OrderBy` does so behind `Or` only if the criterion in front of that is understood. -/
theorem exists_read_append_of_stop {p : Passage Predicate} {stem : Text} (hs : s.IsPlain)
    (h : read s t = .ok p) (hn : p.next = .stop e) (ht : t = stem ++ e.residue)
    (hw : w ∈ e.place.words g s) (hx : e.residue ++ y <+: w) (hne : e.residue ++ y ≠ w)
    (horder : e.place = .criterionStart true → w = "derBy".toList →
      ∀ c ∈ p.value.criteria.getLast?, c.isUnderstood = true) :
    ∃ p' e', read s (t ++ y) = .ok p' ∧ p'.next = .stop e' ∧
      e'.Offers g s (t ++ y) (stem ++ w) := by
  obtain ⟨hcount, hempty, hvalue, hnext⟩ := eq_of_read h
  rw [hn] at hnext
  have htail := tail_of_next_eq_stop hnext.symm
  have hj := Chain.joined_ne_nil hempty
  cases hm : chain s t with
  | mk joined last tail =>
  rw [hm] at hvalue hnext htail hj
  obtain rfl : tail = [] := htail
  cases hp : (Criterion.ofText s last).property.isSome with
  | true =>
    rw [next_of_property rfl hp] at hnext
    obtain rfl := Next.stop.inj hnext
    exact exists_read_append_of_criterion hs hcount hj hm hp ht hw hx hne
  | false =>
    rw [next_of_no_property rfl hp] at hnext
    obtain rfl := Next.stop.inj hnext
    rcases List.mem_append.mp hw with hproperty | hor
    · obtain ⟨q, hq, rfl⟩ := List.mem_map.mp hproperty
      obtain ⟨p', hread, hnext'⟩ := exists_read_append_of_start hs hcount hj hm hq hx hne
      refine ⟨p', _, hread, hnext', stem, q.identifier, ?_, hw, hx, rfl⟩
      rw [ht, List.append_assoc]
    · have hrest : (Conjunction.or.word.isPrefixOf? Word.orderBy).toList = ["derBy".toList] := rfl
      cases hb : Chain.lastConjunction? ⟨joined, last, []⟩ == some .or with
      | false =>
        rw [hb] at hor
        cases hor
      | true =>
        rw [hb, if_pos rfl, hrest, List.mem_singleton] at hor
        obtain ⟨f, front, rfl⟩ := exists_joined_eq_concat (eq_of_beq hb)
        have hopen := (splitCriterion_last hm).2.2 (List.concat_ne_nil _ _)
        obtain rfl : last = [] := by
          rw [hor] at hx
          have hpre := (List.prefix_append last y).trans hx
          cases last with
          | nil => rfl
          | cons c last =>
            obtain rfl := (List.cons_prefix_cons.mp hpre).1
            cases opens_cons.mp hopen
        have hunderstood := horder (by rw [hb]) hor (Criterion.ofText s f) (by
          rw [hvalue, getLast?_criteria_ofChain]
          rfl)
        rw [List.append_nil] at ht
        rw [List.nil_append] at hx hne
        rw [← ht, hor]
        exact exists_read_append_of_or hs hcount hj hm rfl rfl hunderstood (hor ▸ hx) (hor ▸ hne)

/-- The residue of criteria that break off is no longer than their text. -/
theorem length_residue_le_of_stop {p : Passage Predicate} (h : read s t = .ok p)
    (hn : p.next = .stop e) : e.residue.length ≤ t.length := by
  have hnext := (eq_of_read h).2.2.2
  rw [hn] at hnext
  have htail := tail_of_next_eq_stop hnext.symm
  have hlast : (chain s t).last.length ≤ t.length := by
    conv_rhs => rw [← Chain.text_chain s t, Chain.text_eq, List.length_append, List.length_append]
    omega
  refine Nat.le_trans ?_ hlast
  cases hp : (Criterion.ofText s (chain s t).last).property.isSome with
  | true =>
    rw [next_of_property htail hp] at hnext
    obtain rfl := Next.stop.inj hnext
    obtain ⟨q, hq⟩ := Option.isSome_iff_exists.mp hp
    exact Criterion.length_residue_le hq
  | false =>
    rw [next_of_no_property htail hp] at hnext
    obtain rfl := Next.stop.inj hnext
    exact Nat.le_refl _

/-- What follows the criteria ends their text. -/
theorem suffix_of_resume {p : Passage Predicate} (h : read s t = .ok p) (hn : p.next = .resume tail) :
    tail <:+ t := by
  have hnext := (eq_of_read h).2.2.2
  rw [hn] at hnext
  refine ⟨joinedText (chain s t).joined ++ (chain s t).last, ?_⟩
  rw [← tail_of_next_eq_resume hnext.symm, List.append_assoc, ← Chain.text_eq, Chain.text_chain]

/-- Criteria go on with a text that opens if they have not begun yet. -/
theorem opens_append_of_stop {p : Passage Predicate} (h : read s t = .ok p) (hn : p.next = .stop e)
    (hw : w ∈ e.place.words g s) (hx : e.residue ++ y <+: w) (ht : Opens t) : Opens (t ++ y) := by
  refine ht.append_of_nil ?_
  rintro rfl
  have hnext := (eq_of_read h).2.2.2
  rw [hn, chain_nil, next_of_last_eq_nil s rfl rfl] at hnext
  obtain rfl := Next.stop.inj hnext
  obtain ⟨q, -, rfl⟩ : ∃ q ∈ s.properties, q.identifier = w :=
    List.mem_map.mp ((List.mem_append.mp hw).resolve_right List.not_mem_nil)
  exact q.opens_identifier.of_isPrefix hx

/-- What follows the criteria goes on where the text does. -/
theorem exists_read_append_of_resume {p : Passage Predicate} {stem z : Text} (hs : s.IsPlain)
    (h : read s t = .ok p) (hn : p.next = .resume tail) (ht : t = stem ++ z) (hz : Opens (z ++ y))
    (hbars : Bars (z ++ y) Word.orderBy) (hlacks : ¬Word.orderBy <:+: z ++ y)
    (hy : ∀ (w : Terminator) (behind : Text), (∀ k, w ≠ .join k) → tail = w.word ++ behind →
      Opens behind → Opens (behind ++ y)) :
    ∃ p', read s (t ++ y) = .ok p' ∧ p'.next = .resume (tail ++ y) := by
  obtain ⟨hcount, hempty, -, hnext⟩ := eq_of_read h
  rw [hn] at hnext
  have htail := tail_of_next_eq_resume hnext.symm
  cases hm : chain s t with
  | mk joined last tail' =>
  rw [hm] at hempty hnext htail
  obtain rfl : tail' = tail := htail
  have hne : tail' ≠ [] := by
    rintro rfl
    obtain ⟨e, he⟩ := exists_next_eq_stop s (p := ⟨joined, last, []⟩) rfl
    rw [he] at hnext
    cases hnext
  have hchain := chain_append_of_tail hs hm hne hy
  have hempty' : (chain s (t ++ y)).emptyBranch? = none := by
    rw [hchain]
    refine Chain.emptyBranch?_eq_none_iff.mpr ?_
    refine (Chain.emptyBranch?_eq_none_iff.mp hempty).imp_left fun hfilled ↦ ⟨hfilled.joined, ?_⟩
    exact fun hl ↦ absurd (hfilled.last hl) hne
  have hle : Keyword.count Word.orderBy (t ++ y) ≤ 1 := by
    rw [ht] at hcount ⊢
    rw [List.append_assoc]
    exact (Keyword.count_append_le (by decide) hbars hlacks
      (hz.of_isPrefix (List.prefix_append z y))).trans hcount
  obtain ⟨p', hread⟩ := exists_read_iff.mpr ⟨hle, hempty'⟩
  have hnext' := (eq_of_read hread).2.2.2
  rw [hchain] at hnext'
  refine ⟨p', hread, hnext'.trans ?_⟩
  exact next_of_tail_ne_nil s (p := ⟨joined, last, tail' ++ y⟩)
    (List.append_ne_nil_of_left_ne_nil hne y)

end Predicate

end QueryNames
