import QueryNames.Proofs.TypedClosing
import QueryNames.Proofs.TypedCriteria
import QueryNames.Proofs.TypedSubject
import QueryNames.Proofs.WrittenName

/-!
# Typing towards an option

An option is typed character by character. Over a plain schema it stays an option all the while,
because reading breaks off in the same section as before and the word that is being typed stays
offered there. Two things can take an option away: a verb that has been typed in passing, and a
criterion in front of `Or` that is not understood when `OrderBy` is typed.
-/

namespace QueryNames

open Text

namespace Place

variable {g : Grammar} {s : Schema} {w : Text}

private theorem mem_words_subject {distinct hasLimit hasNumber : Bool}
    (hw : w ∈ (Place.subject distinct hasLimit hasNumber).words g s) :
    w = Word.numberSlot ∨ w ∈ Property.rivals ++ s.identifiers := by
  have hdistinct : Word.distinct ∈ Property.rivals := by decide
  have hlimit : LimitWord.all.map LimitWord.word ⊆ Property.rivals := by decide
  simp only [words, List.mem_append, List.mem_ite_nil_left, List.mem_ite_nil_right,
    List.mem_singleton] at hw ⊢
  rcases hw with (((⟨-, rfl⟩ | ⟨-, hw⟩) | ⟨-, rfl⟩) | rfl) | hw
  · exact Or.inr (Or.inl hdistinct)
  · exact Or.inr (Or.inl (hlimit hw))
  · exact Or.inl rfl
  · exact Or.inr (Or.inl List.mem_cons_self)
  · exact Or.inr (Or.inr hw)

private theorem mem_words_orderProperty (hw : w ∈ Place.orderProperty.words g s) :
    w ∈ Property.rivals ++ s.identifiers := by
  have hdirection : Direction.all.map Direction.word ⊆ Property.rivals := by decide
  rcases List.mem_append.mp hw with hd | hp
  · exact List.mem_append_left _ (hdirection hd)
  · cases hpolicy : g.missingDirection with
    | reject =>
      rw [hpolicy] at hp
      cases hp
    | ascending =>
      rw [hpolicy] at hp
      exact List.mem_append_right _ hp

private theorem mem_words_placeAfter {items : List OrderItem}
    (hw : w ∈ (OrderItem.placeAfter items).words g s) : w ∈ Property.rivals ++ s.identifiers := by
  rw [OrderItem.placeAfter] at hw
  split at hw
  · exact List.mem_append_right _ hw
  · split at hw
    · exact List.mem_append_right _ hw
    · exact mem_words_orderProperty hw

/-- A word that goes on with a name consists of name characters unless a number is meant. -/
theorem all_isNameChar_of_mem_words {place : Place} (hw : w ∈ place.words g s) (hb : '[' ∉ w) :
    w.all isNameChar = true := by
  have hrivals : ∀ k ∈ Property.rivals, k.all isNameChar = true := by decide
  have hidentifiers : ∀ k ∈ s.identifiers, k.all isNameChar = true := by
    intro k hk
    obtain ⟨p, hp, rfl⟩ := List.mem_map.mp hk
    exact (s.named p hp).all_isNameChar
  have hboth : ∀ k ∈ Property.rivals ++ s.identifiers, k.all isNameChar = true :=
    List.forall_mem_append.mpr ⟨hrivals, hidentifiers⟩
  cases place with
  | verb => exact Grammar.all_isNameChar_verb hw
  | subject distinct hasLimit hasNumber =>
    rcases mem_words_subject hw with rfl | hmem
    · exact absurd (by decide) hb
    · exact hboth w hmem
  | introducer => exact hrivals w (List.mem_singleton.mp hw ▸ List.mem_cons_self)
  | criterionStart behindOr =>
    rcases List.mem_append.mp hw with hp | hor
    · exact hidentifiers w hp
    · have hrest : ∀ k ∈ (Conjunction.or.word.isPrefixOf? Word.orderBy).toList,
          k.all isNameChar = true := by decide
      exact hrest w (List.mem_ite_nil_right.mp hor).2
  | criterion c => exact Criterion.all_isNameChar_of_follower (Criterion.mem_followers hw)
  | allIgnoreCase =>
    rw [List.mem_singleton.mp hw]
    decide
  | orderStart => exact hidentifiers w hw
  | orderProperty => exact hboth w (mem_words_orderProperty hw)
  | orderDirection => exact hidentifiers w hw

end Place

namespace Subject

private theorem isUnfinished_of_stop {g : Grammar} {s : Schema} {t w x : Text} {e : Edge}
    (h : (read s t).next = .stop e) (hw : w ∈ e.place.words g s) (hb : '[' ∉ w) (hx : x <+: w)
    (hne : x ≠ w) : s.IsUnfinished x := by
  have hmem : w ∈ Property.rivals ++ s.identifiers := by
    rcases place_of_stop h with hplace | ⟨distinct, hasLimit, hasNumber, hplace⟩
    · rw [hplace] at hw
      exact List.mem_append_left _ (List.mem_singleton.mp hw ▸ List.mem_cons_self)
    · rw [hplace] at hw
      refine (Place.mem_words_subject hw).resolve_left ?_
      rintro rfl
      exact hb (by decide)
  exact .of_mem hmem hx hne

end Subject

namespace Closing

private theorem isTyped_of_mem_words {g : Grammar} {s : Schema} {policy : DirectionPolicy}
    {t w x : Text} (hw : w ∈ (read policy s t).2.2.place.words g s) (hx : x <+: w) (hne : x ≠ w) :
    IsTyped s (read policy s t).2.2.place x := by
  rw [edge_read] at hw ⊢
  split at hw
  · rw [IsTyped, if_pos rfl, ← List.mem_singleton.mp hw]
    exact ⟨hx, hne⟩
  · rw [IsTyped, if_neg (OrderItem.placeAfter_ne _)]
    exact .of_mem (Place.mem_words_placeAfter hw) hx hne

end Closing

/-- An edge offers the same with a text in front. -/
theorem Edge.Offers.append_left {g : Grammar} {s : Schema} {e : Edge} {t o : Text}
    (h : e.Offers g s t o) (u : Text) : e.Offers g s (u ++ t) (u ++ o) := by
  obtain ⟨stem, w, rfl, hw, hpre, rfl⟩ := h
  exact ⟨u ++ stem, w, (List.append_assoc _ _ _).symm, hw, hpre, (List.append_assoc _ _ _).symm⟩

/-- What the edge offers is an option. -/
theorem Edge.Offers.mem_options {g : Grammar} {s : Schema} {r : Reading} {o : Text}
    (h : r.edge.Offers g s r.source o) : o ∈ r.options g s := by
  obtain ⟨stem, w, ht, hw, hpre, ho⟩ := h
  exact Reading.mem_options_iff_exists.mpr ⟨stem, ht, Or.inl ⟨w, hw, hpre, ho⟩⟩

namespace Grammar

variable {g : Grammar} {s : Schema} {source verb rest t y w o stem behind : Text} {r : Reading}

private theorem readBehind_cases (h : g.readBehind s source verb rest = .ok r) :
    r.source = source ∧ ((Subject.read s rest).next = .stop r.edge ∨
      ∃ behind p, (Subject.read s rest).next = .resume behind ∧
        Predicate.read s behind = .ok p ∧ r.query.predicate = p.value ∧
          (p.next = .stop r.edge ∨ ∃ tail, p.next = .resume tail ∧
            r.edge = (Closing.read g.missingDirection s tail).2.2)) := by
  cases readsBehind_of_readBehind h with
  | subject hn => exact ⟨rfl, Or.inl hn⟩
  | criteria hn hp hpn => exact ⟨rfl, Or.inr ⟨_, _, hn, hp, rfl, Or.inl hpn⟩⟩
  | closing hn hp hpn => exact ⟨rfl, Or.inr ⟨_, _, hn, hp, rfl, Or.inr ⟨_, hpn, rfl⟩⟩⟩

/-- A reading is one of its text. -/
theorem source_of_read (h : g.read s t = .ok r) : r.source = t := by
  have hall := all_isNameChar_of_read h
  cases hr : Keyword.readLongest? id g.verbs t with
  | none =>
    rw [read_of_verb_eq_none hall hr] at h
    obtain rfl := Except.ok.inj h
    rfl
  | some m =>
    obtain ⟨verb, rest⟩ := m
    rw [read_of_verb hall hr] at h
    exact (readBehind_cases h).1

/-- The residue of a name is no longer than what stands behind the verb and the words in front of
what is asked for. -/
theorem length_residue_le_behindFront (h : g.readBehind s source verb rest = .ok r) :
    r.edge.residue.length ≤ (Subject.behindFront rest).length := by
  rcases (readBehind_cases h).2 with hn | ⟨behind, p, hn, hp, -, hpn | ⟨tail, hpn, he⟩⟩
  · exact (Subject.residue_suffix_behindFront hn).length_le
  · exact (Predicate.length_residue_le_of_stop hp hpn).trans
      (Subject.suffix_behindFront_of_resume hn).length_le
  · rw [he]
    exact ((Closing.residue_suffix _ s tail).trans ((Predicate.suffix_of_resume hp hpn).trans
      (Subject.suffix_behindFront_of_resume hn))).length_le

private theorem length_residue_le (h : g.readBehind s source verb rest = .ok r) :
    r.edge.residue.length ≤ rest.length := by
  obtain ⟨hrest, hfront⟩ := Subject.behindFront_suffix rest
  exact (length_residue_le_behindFront h).trans (hrest.trans hfront).length_le

section Behind

variable (hs : s.IsPlain) (h : g.readBehind s source verb rest = .ok r)
  (ht : rest = stem ++ r.edge.residue) (hw : w ∈ r.edge.place.words g s)
  (hx : r.edge.residue ++ y <+: w) (hne : r.edge.residue ++ y ≠ w)

include hs ht hw hx hne

private theorem exists_readBehind_append_of_subject (hn : (Subject.read s rest).next = .stop r.edge)
    (hb : '[' ∉ w) :
    ∃ r', g.readBehind s (verb ++ (rest ++ y)) verb (rest ++ y) = .ok r' ∧
      r'.edge.Offers g s (rest ++ y) (stem ++ w) := by
  have hunfinished := Subject.isUnfinished_of_stop hn hw hb hx hne
  refine ⟨_, readBehind_of_stop (Subject.next_append_of_stop hs hn hunfinished), stem, w, ?_, hw, hx,
    rfl⟩
  rw [ht, List.append_assoc]

private theorem exists_readBehind_append_of_criteria {p : Passage Predicate}
    (hn : (Subject.read s rest).next = .resume behind) (hp : Predicate.read s behind = .ok p)
    (hpn : p.next = .stop r.edge)
    (horder : r.edge.place = .criterionStart true → w = "derBy".toList →
      ∀ c ∈ p.value.criteria.getLast?, c.isUnderstood = true) :
    ∃ r', g.readBehind s (verb ++ (rest ++ y)) verb (rest ++ y) = .ok r' ∧
      r'.edge.Offers g s (rest ++ y) (stem ++ w) := by
  obtain ⟨front, hfront⟩ := Subject.suffix_of_resume hn
  obtain ⟨u, hu⟩ := List.suffix_of_suffix_length_le ⟨stem, ht.symm⟩ ⟨front, hfront⟩
    (Predicate.length_residue_le_of_stop hp hpn)
  have hstem : stem = front ++ u := by
    rw [← hfront, ← hu, ← List.append_assoc] at ht
    exact (List.append_cancel_right ht).symm
  have hopen := Predicate.opens_append_of_stop hp hpn hw hx (Subject.opens_of_resume hn)
  obtain ⟨p', e, hread, hnext, hoffers⟩ :=
    Predicate.exists_read_append_of_stop hs hp hpn hu.symm hw hx hne horder
  refine ⟨_, readBehind_of_criteria (Subject.next_append_of_resume hs hn hopen) hread hnext, ?_⟩
  rw [hstem, ← hfront, List.append_assoc, List.append_assoc]
  exact hoffers.append_left front

private theorem exists_readBehind_append_of_closing {p : Passage Predicate} {tail : Text}
    (hn : (Subject.read s rest).next = .resume behind) (hp : Predicate.read s behind = .ok p)
    (hpn : p.next = .resume tail) (he : r.edge = (Closing.read g.missingDirection s tail).2.2) :
    ∃ r', g.readBehind s (verb ++ (rest ++ y)) verb (rest ++ y) = .ok r' ∧
      r'.edge.Offers g s (rest ++ y) (stem ++ w) := by
  rw [he] at ht hw hx hne
  have htyped := Closing.isTyped_of_mem_words hw hx hne
  obtain ⟨hopen, hbars, hlacks⟩ := htyped.bars_orderBy hs
  have hresidue := Closing.residue_suffix g.missingDirection s tail
  have htail := Predicate.suffix_of_resume hp hpn
  obtain ⟨front, hfront⟩ := Subject.suffix_of_resume hn
  obtain ⟨u, hu⟩ := hresidue.trans htail
  have hbehind : Opens (behind ++ y) := by
    refine (Subject.opens_of_resume hn).append_of_nil ?_
    rintro rfl
    obtain ⟨-, hnil⟩ := List.append_eq_nil_iff.mp hu
    rw [hnil] at hopen
    exact hopen
  have hy : ∀ (k : Terminator) (b : Text), (∀ c, k ≠ .join c) → tail = k.word ++ b → Opens b →
      Opens (b ++ y) := by
    intro k b hk htext hb
    refine hb.append_of_nil ?_
    rintro rfl
    rw [htext, List.append_nil, Closing.residue_read_word hk] at hopen
    exact hopen
  obtain ⟨p', hread, hnext⟩ :=
    Predicate.exists_read_append_of_resume hs hp hpn hu.symm hopen hbars hlacks hy
  have hedge := Closing.edge_read_append hs htyped
  refine ⟨_, readBehind_of_closing (Subject.next_append_of_resume hs hn hbehind) hread hnext, ?_⟩
  rw [hedge]
  refine ⟨stem, w, ?_, hw, hx, rfl⟩
  rw [ht, List.append_assoc]

include h in
private theorem exists_readBehind_append (hb : '[' ∉ w)
    (horder : r.edge.place = .criterionStart true → w = "derBy".toList →
      ∀ c ∈ r.query.predicate.criteria.getLast?, c.isUnderstood = true) :
    ∃ r', g.readBehind s (verb ++ (rest ++ y)) verb (rest ++ y) = .ok r' ∧
      r'.edge.Offers g s (rest ++ y) (stem ++ w) := by
  rcases (readBehind_cases h).2 with hn | ⟨behind, p, hn, hp, hvalue, hpn | ⟨tail, hpn, he⟩⟩
  · exact exists_readBehind_append_of_subject hs ht hw hx hne hn hb
  · exact exists_readBehind_append_of_criteria hs ht hw hx hne hn hp hpn (hvalue ▸ horder)
  · exact exists_readBehind_append_of_closing hs ht hw hx hne hn hp hpn he

end Behind

private theorem opens_of_rest_eq_nil (hs : s.IsPlain) (h : g.readBehind s source verb [] = .ok r)
    (hw : w ∈ r.edge.place.words g s) (hb : '[' ∉ w) (hx : r.edge.residue ++ y <+: w)
    (hne : r.edge.residue ++ y ≠ w) : Opens y ∧ ∀ c ∈ y.head?, c.isDigit = false := by
  obtain ⟨e, he⟩ := Subject.exists_next_eq_stop s (t := []) (by decide)
  have hnil : e.residue = [] := List.suffix_nil.mp (Subject.residue_suffix he)
  rw [readBehind_of_stop he] at h
  obtain rfl := Except.ok.inj h
  rw [hnil, List.nil_append] at hx hne
  have hunfinished := Subject.isUnfinished_of_stop he hw hb hx hne
  exact ⟨hunfinished.opens, hunfinished.isDigit_head hs⟩

private theorem readLongest?_append_right
    (hr : Keyword.readLongest? id g.verbs t = some (verb, rest))
    (hpass : ∀ v ∈ g.verbs, Keyword.read? v (t ++ y) ≠ none → v <+: t)
    (hnil : rest = [] → Opens y ∧ ∀ c ∈ y.head?, c.isDigit = false) :
    Keyword.readLongest? id g.verbs (t ++ y) = some (verb, rest ++ y) := by
  have hread : ∀ v ∈ g.verbs, Keyword.read? v (t ++ y) = (Keyword.read? v t).map (· ++ y) := by
    intro v hv
    by_cases hin : v <+: t
    · obtain ⟨z, rfl⟩ := hin
      rw [List.append_assoc]
      cases z with
      | cons c z =>
        have hseam : isSeam v.getLast? (c :: z ++ y) = isSeam v.getLast? (c :: z) :=
          isSeam_congr _ rfl
        rw [Keyword.read?, Keyword.read?, isPrefixOf?_append, isPrefixOf?_append,
          Option.filter_some, Option.filter_some, hseam]
        split <;> rfl
      | nil =>
        have hv' : Keyword.read? v (v ++ []) = some [] :=
          Keyword.read?_eq_some_iff.mpr ⟨rfl, isSeam_nil _⟩
        -- no longer verb is read there, so nothing stands behind the one that is
        have hle : v.length ≤ verb.length := size_le_of_longest? hr hv hv'
        have hrest : rest = [] := by
          have hlen := congrArg List.length (Keyword.eq_of_readLongest? hr)
          rw [List.append_nil, id, List.length_append] at hlen
          exact List.length_eq_zero_iff.mp (by omega)
        obtain ⟨hopen, hdigit⟩ := hnil hrest
        rw [List.nil_append, read?_verb_append hv hopen hdigit, hv', Option.map_some,
          List.nil_append]
    · rw [Keyword.read?_eq_none_of_not_prefix hin, Option.map_none]
      exact not_not.mp fun hne ↦ hin (hpass v hv hne)
  have hlongest : Keyword.readLongest? id g.verbs (t ++ y) =
      (Keyword.readLongest? id g.verbs t).map fun m ↦ (m.1, m.2 ++ y) := longest?_map hread
  rw [hlongest, hr, Option.map_some]

private theorem exists_read_of_verb (ho : o ∈ g.verbs) (hx : t <+: o) (hne : t ≠ o)
    (hverb : ¬Word.introducer <:+: o ∨ Keyword.readLongest? id g.verbs t = none) :
    ∃ r, g.read s t = .ok r ∧ o ∈ r.options g s := by
  have hall : t.all isNameChar = true := List.all_eq_true.mpr fun c hc ↦
    List.all_eq_true.mp (all_isNameChar_verb ho) c (hx.subset hc)
  cases hr : Keyword.readLongest? id g.verbs t with
  | none =>
    refine ⟨_, read_of_verb_eq_none hall hr, Edge.Offers.mem_options ?_⟩
    exact ⟨[], o, rfl, ho, hx, rfl⟩
  | some m =>
    obtain ⟨verb, rest⟩ := m
    have hrest : rest <:+ t := ⟨verb, (Keyword.eq_of_readLongest? hr).symm⟩
    have hlacks : ¬Word.introducer <:+: rest := by
      rw [hr] at hverb
      exact fun hby ↦ hverb.resolve_right nofun (hby.trans (hrest.isInfix.trans hx.isInfix))
    obtain ⟨e, he⟩ := Subject.exists_next_eq_stop s hlacks
    obtain ⟨stem, hstem⟩ := (Subject.residue_suffix he).trans hrest
    have hlt : t.length < o.length :=
      Nat.lt_of_le_of_ne hx.length_le fun hlen ↦ hne (hx.eq_of_length hlen)
    refine ⟨_, (read_of_verb hall hr).trans (readBehind_of_stop he), ?_⟩
    exact Reading.mem_options_iff_exists.mpr ⟨stem, hstem.symm, Or.inr (Or.inl ⟨ho, hlt, hx⟩)⟩

private theorem all_isNameChar_append (ht : t.all isNameChar = true) (hstem : stem <+: t)
    (hw : w.all isNameChar = true) (hx : t ++ y <+: stem ++ w) :
    (t ++ y).all isNameChar = true := by
  refine List.all_eq_true.mpr fun c hc ↦ ?_
  rcases List.mem_append.mp (hx.subset hc) with hin | hin
  · exact List.all_eq_true.mp ht c (hstem.subset hin)
  · exact List.all_eq_true.mp hw c hin

private theorem exists_read_of_word (hs : s.IsPlain) (h : g.read s t = .ok r)
    (hr : Keyword.readLongest? id g.verbs t = some (verb, rest)) (ht : t = stem ++ r.edge.residue)
    (hw : w ∈ r.edge.place.words g s) (hb : '[' ∉ w) (hx : r.edge.residue ++ y <+: w)
    (hne : r.edge.residue ++ y ≠ w)
    (hpass : ∀ v ∈ g.verbs, Keyword.read? v (t ++ y) ≠ none → v <+: t)
    (horder : r.edge.place = .criterionStart true → w = "derBy".toList →
      ∀ c ∈ r.query.predicate.criteria.getLast?, c.isUnderstood = true) :
    ∃ r', g.read s (t ++ y) = .ok r' ∧ stem ++ w ∈ r'.options g s := by
  have hname := all_isNameChar_of_read h
  rw [read_of_verb hname hr] at h
  have htext : t = verb ++ rest := Keyword.eq_of_readLongest? hr
  obtain ⟨u, hu⟩ := List.suffix_of_suffix_length_le ⟨stem, ht.symm⟩ ⟨verb, htext.symm⟩
    (length_residue_le h)
  have hstem : stem = verb ++ u := by
    rw [htext, ← hu, ← List.append_assoc] at ht
    exact (List.append_cancel_right ht).symm
  have hall : (t ++ y).all isNameChar = true := by
    refine all_isNameChar_append hname ⟨_, ht.symm⟩ (Place.all_isNameChar_of_mem_words hw hb) ?_
    rw [ht, List.append_assoc]
    exact (List.prefix_append_right_inj stem).mpr hx
  have hnil : rest = [] → Opens y ∧ ∀ c ∈ y.head?, c.isDigit = false := by
    rintro rfl
    exact opens_of_rest_eq_nil hs h hw hb hx hne
  have hread := read_of_verb (s := s) hall (readLongest?_append_right hr hpass hnil)
  obtain ⟨r', hbehind, hoffers⟩ := exists_readBehind_append hs h hu.symm hw hx hne hb horder
  rw [← List.append_assoc, ← htext] at hbehind
  refine ⟨r', hread.trans hbehind, Edge.Offers.mem_options ?_⟩
  rw [(readBehind_cases hbehind).1, hstem, htext, List.append_assoc, List.append_assoc]
  exact hoffers.append_left verb

/-- Over a plain schema an option stays an option while it is typed. No other verb may be read in
passing, unless the option is a verb itself without `By`. If the option adds the rest of `OrderBy`
behind `Or`, the criterion in front of that has to be understood. -/
theorem mem_options_append (hs : s.IsPlain) (h : g.read s t = .ok r) (ho : o ∈ r.options g s)
    (hb : '[' ∉ o) (hx : t ++ y <+: o) (hne : t ++ y ≠ o)
    (hverb : o ∈ g.verbs →
      ¬Word.introducer <:+: o ∨ Keyword.readLongest? id g.verbs (t ++ y) = none)
    (hpass : o ∉ g.verbs → ∀ v ∈ g.verbs, Keyword.read? v (t ++ y) ≠ none → v <+: t)
    (horder : r.edge.place = .criterionStart true → "derBy".toList <:+ o →
      ∀ c ∈ r.query.predicate.criteria.getLast?, c.isUnderstood = true) :
    ∃ r', g.read s (t ++ y) = .ok r' ∧ o ∈ r'.options g s := by
  by_cases hmem : o ∈ g.verbs
  · exact exists_read_of_verb hmem hx hne (hverb hmem)
  obtain ⟨stem, ht, hword | ⟨hv, -, -⟩ | ⟨-, rfl⟩⟩ := Reading.mem_options_iff_exists.mp ho
  · obtain ⟨w, hw, -, rfl⟩ := hword
    rw [source_of_read h] at ht
    have hx' : r.edge.residue ++ y <+: w := by
      rw [ht, List.append_assoc] at hx
      exact (List.prefix_append_right_inj stem).mp hx
    have hne' : r.edge.residue ++ y ≠ w := by
      rintro rfl
      exact hne (by rw [ht, List.append_assoc])
    cases hr : Keyword.readLongest? id g.verbs t with
    | none =>
      rw [read_of_verb_eq_none (all_isNameChar_of_read h) hr] at h
      obtain rfl := Except.ok.inj h
      obtain rfl : stem = [] := List.append_left_eq_self.mp ht.symm
      exact absurd hw hmem
    | some m =>
      exact exists_read_of_word hs h hr ht hw (fun hin ↦ hb (List.mem_append_right stem hin)) hx'
        hne' (hpass hmem) fun hplace hder ↦ horder hplace ⟨stem, hder ▸ rfl⟩
  · exact absurd hv hmem
  · rw [source_of_read h] at hx hne
    exact absurd (hx.eq_of_length_le (List.prefix_append t y).length_le) hne

/-- The rest of `OrderBy` is offered behind `Or`, and so it is where `Or` itself has been typed on the
way. -/
theorem mem_options_append_sample :
    ∃ r', standard.read .sample ("findByText".toList ++ "Or".toList) = .ok r' ∧
      "findByTextOrderBy".toList ∈ r'.options standard .sample := by
  have key : (standard.read .sample "findByText".toList).toOption.any (fun r ↦
      "findByTextOrderBy".toList ∈ r.options standard .sample ∧
        r.edge.place ≠ .criterionStart true) = true := by
    decide +kernel
  have hpass : ∀ v ∈ standard.verbs,
      Keyword.read? v ("findByText".toList ++ "Or".toList) ≠ none → v <+: "findByText".toList := by
    decide
  cases hread : standard.read .sample "findByText".toList with
  | error fault =>
    rw [hread] at key
    cases key
  | ok r =>
    rw [hread, Except.toOption, Option.any_some, decide_eq_true_eq] at key
    exact mem_options_append Schema.isPlain_sample hread key.1 (by decide) (by decide) (by decide)
      (fun hv ↦ absurd hv (by decide)) (fun _ ↦ hpass) fun hplace ↦ absurd hplace key.2

/-- Behind a criterion that is not understood the rest of `OrderBy` is offered, but not while it is
typed. -/
example :
    ((standard.read .sample "findByTextFooOr".toList).toOption.any fun r ↦
        "findByTextFooOrderBy".toList ∈ r.options standard .sample) = true ∧
      ((standard.read .sample "findByTextFooOrd".toList).toOption.any fun r ↦
        "findByTextFooOrderBy".toList ∈ r.options standard .sample) = false := by
  decide +kernel

/-- A property that hides in the option takes it away once it has been typed. -/
theorem exists_option_lost :
    ∃ r r', standard.read .keywordLike "findBy".toList = .ok r ∧
      "findByOrderId".toList ∈ r.options standard .keywordLike ∧
      "findBy".toList ++ "Order".toList <+: "findByOrderId".toList ∧
      standard.read .keywordLike ("findBy".toList ++ "Order".toList) = .ok r' ∧
      "findByOrderId".toList ∉ r'.options standard .keywordLike := by
  have key : (standard.read .keywordLike "findBy".toList).toOption.any (fun r ↦
        "findByOrderId".toList ∈ r.options standard .keywordLike) = true ∧
      (standard.read .keywordLike ("findBy".toList ++ "Order".toList)).toOption.any (fun r ↦
        "findByOrderId".toList ∉ r.options standard .keywordLike) = true := by
    decide +kernel
  obtain ⟨hbefore, hafter⟩ := key
  cases hread : standard.read .keywordLike "findBy".toList with
  | error fault =>
    rw [hread] at hbefore
    cases hbefore
  | ok r =>
    cases hread' : standard.read .keywordLike ("findBy".toList ++ "Order".toList) with
    | error fault =>
      rw [hread'] at hafter
      cases hafter
    | ok r' =>
      rw [hread, Except.toOption, Option.any_some, decide_eq_true_eq] at hbefore
      rw [hread', Except.toOption, Option.any_some, decide_eq_true_eq] at hafter
      exact ⟨r, r', rfl, hbefore, by decide, rfl, hafter⟩

end Grammar

end QueryNames
