import QueryNames.Proofs.Extension

/-!
# Plain schemas

While a word is typed, its beginning may already be another word: `Top` while `Topic` is typed, or
`Order` while `OrderId` is. In a plain schema this does not happen with properties, because no other
word hides in an identifier and no identifier in another word. What has been typed of a property, or
of a word that may stand in its place, is therefore never taken for something else.
-/

namespace QueryNames

open Text

namespace Property

/-- The words that may stand where a property may. -/
def rivals : List Text := Word.introducer :: reservedHeads

/-- No word of the grammar hides in the identifier. A word that may stand in its place neither begins
it nor is begun by it, and a word that ends what stands in front of it is no part of it. -/
structure IsPlain (p : Property) : Prop where
  lacksIntroducer : ¬Word.introducer <:+: p.identifier
  lacksConjunctions : ∀ c ∈ Conjunction.all, ¬c.word <:+: p.identifier
  lacksMarkers : p.LacksMarkers
  lacksRivals : ∀ k ∈ rivals, ¬k <+: p.identifier ∧ ¬p.identifier <+: k
  lacksDigit : p.identifier.head?.any Char.isDigit = false

instance (p : Property) : Decidable p.IsPlain :=
  decidable_of_iff
    (¬Word.introducer <:+: p.identifier ∧ (∀ c ∈ Conjunction.all, ¬c.word <:+: p.identifier) ∧
      p.LacksMarkers ∧ (∀ k ∈ rivals, ¬k <+: p.identifier ∧ ¬p.identifier <+: k) ∧
        p.identifier.head?.any Char.isDigit = false)
    ⟨fun ⟨hb, hc, hm, hr, hd⟩ ↦ ⟨hb, hc, hm, hr, hd⟩,
      fun h ↦ ⟨h.lacksIntroducer, h.lacksConjunctions, h.lacksMarkers, h.lacksRivals, h.lacksDigit⟩⟩

/-- No word that ends a criterion stands in a plain identifier. -/
theorem IsPlain.not_isInfix_word {p : Property} (h : p.IsPlain) (w : Terminator) :
    ¬w.word <:+: p.identifier := by
  intro hw
  cases w with
  | join c => exact h.lacksConjunctions c (by cases c <;> decide) hw
  | marker m =>
    have hm : m.word <:+: m.allWord := (List.suffix_append _ m.word).isInfix
    exact h.lacksMarkers m (hm.trans hw)
  | order =>
    have ho : Conjunction.or.word <:+: Word.orderBy := by decide
    exact h.lacksConjunctions .or (by decide) (ho.trans hw)

/-- No word that may stand in the place of a property stands where a plain identifier begins. -/
theorem IsPlain.not_prefix_append {p : Property} (h : p.IsPlain) {k : Text} (hk : k ∈ rivals)
    (y : Text) : ¬k <+: p.identifier ++ y := by
  obtain ⟨hbegins, hbegun⟩ := h.lacksRivals k hk
  intro hpre
  rcases prefix_append_cases hpre with hin | ⟨z, -, rfl, -⟩
  · exact hbegins hin
  · exact hbegun (List.prefix_append _ z)

end Property

namespace Schema

/-- No word hides in an identifier, neither a word of the grammar nor another identifier. -/
structure IsPlain (s : Schema) : Prop where
  isPrefixFree : s.IsPrefixFree
  property : ∀ p ∈ s.properties, p.IsPlain

instance (s : Schema) : Decidable s.IsPlain :=
  decidable_of_iff (s.IsPrefixFree ∧ ∀ p ∈ s.properties, p.IsPlain)
    ⟨fun ⟨hf, hp⟩ ↦ ⟨hf, hp⟩, fun h ↦ ⟨h.isPrefixFree, h.property⟩⟩

/-- A text that begins an identifier, or a word that may stand in its place, but is not all of it. -/
def IsUnfinished (s : Schema) (x : Text) : Prop :=
  (∃ k ∈ Property.rivals, x <+: k ∧ x ≠ k) ∨
    ∃ p ∈ s.properties, x <+: p.identifier ∧ x ≠ p.identifier

variable {s : Schema} {w x : Text}

private theorem checked_rivals :
    ∀ k ∈ Property.rivals, isCapitalWord k = true ∧ k.head?.any Char.isDigit = false ∧
      ¬Word.introducer <:+: k.dropLast ∧ ∀ k' ∈ Property.rivals, k <+: k' → k = k' := by
  decide

/-- What has been typed of a word is unfinished where a property may stand. -/
theorem IsUnfinished.of_mem (hw : w ∈ Property.rivals ++ s.identifiers) (hx : x <+: w)
    (hne : x ≠ w) : s.IsUnfinished x := by
  rcases List.mem_append.mp hw with hrival | hid
  · exact Or.inl ⟨w, hrival, hx, hne⟩
  · obtain ⟨p, hp, rfl⟩ := List.mem_map.mp hid
    exact Or.inr ⟨p, hp, hx, hne⟩

/-- No word that may stand in the place of a property begins an unfinished text. -/
theorem IsUnfinished.not_prefix (hs : s.IsPlain) (h : s.IsUnfinished x) {k : Text}
    (hk : k ∈ Property.rivals) : ¬k <+: x := by
  intro hpre
  rcases h with ⟨w, hw, hx, hne⟩ | ⟨p, hp, hx, -⟩
  · obtain rfl := (checked_rivals k hk).2.2.2 w hw (hpre.trans hx)
    exact hne (hx.eq_of_length_le hpre.length_le)
  · exact ((hs.property p hp).lacksRivals k hk).1 (hpre.trans hx)

/-- No property is read in an unfinished text. -/
theorem IsUnfinished.headProperty?_eq_none (hs : s.IsPlain) (h : s.IsUnfinished x) :
    s.headProperty? x = none := by
  refine headProperty?_eq_none_iff.mpr fun q hq hpre ↦ ?_
  rcases h with ⟨k, hk, hx, -⟩ | ⟨p, hp, hx, hne⟩
  · exact ((hs.property q hq).lacksRivals k hk).2 (hpre.trans hx)
  · obtain rfl := hs.isPrefixFree q hq p hp (hpre.trans hx)
    exact hne (hx.eq_of_length_le hpre.length_le)

/-- The word `By` is no part of an unfinished text. -/
theorem IsUnfinished.lacksIntroducer (hs : s.IsPlain) (h : s.IsUnfinished x) :
    ¬Word.introducer <:+: x := by
  intro hby
  rcases h with ⟨k, hk, hx, hne⟩ | ⟨p, hp, hx, -⟩
  · exact (checked_rivals k hk).2.2.1 (hby.trans (prefix_dropLast hx hne).isInfix)
  · exact (hs.property p hp).lacksIntroducer (hby.trans hx.isInfix)

/-- An unfinished text opens. -/
theorem IsUnfinished.opens (h : s.IsUnfinished x) : Opens x := by
  rcases h with ⟨k, hk, hx, -⟩ | ⟨p, -, hx, -⟩
  · have hopen := opens_append_of_isCapitalWord (checked_rivals k hk).1 []
    rw [List.append_nil] at hopen
    exact hopen.of_isPrefix hx
  · exact p.opens_identifier.of_isPrefix hx

/-- No digit stands at the head of an unfinished text. -/
theorem IsUnfinished.isDigit_head (hs : s.IsPlain) (h : s.IsUnfinished x) :
    ∀ c ∈ x.head?, c.isDigit = false := by
  intro c hc
  have hhead : ∀ w : Text, x <+: w → w.head?.any Char.isDigit = false → c.isDigit = false := by
    rintro w ⟨u, rfl⟩ hw
    rwa [List.head?_append_of_ne_nil _ (by rintro rfl; cases hc), hc, Option.any_some] at hw
  rcases h with ⟨k, hk, hx, -⟩ | ⟨p, hp, hx, -⟩
  · exact hhead k hx (checked_rivals k hk).2.1
  · exact hhead _ hx (hs.property p hp).lacksDigit

end Schema

namespace Word

/-- A text that opens bars `By`. -/
theorem bars_introducer {x : Text} (hx : Opens x) : Bars x introducer := by
  have key : ∀ v ∈ introducer.tail.tails, v ≠ [] → ¬Opens v := by decide
  intro v hv hne hpre
  exact key v hv hne (hx.of_isPrefix hpre)

/-- A text that opens and does not begin with `By` bars `OrderBy`. -/
theorem bars_orderBy {x : Text} (hx : Opens x) (h : ¬introducer <+: x) : Bars x orderBy := by
  have key : ∀ v ∈ orderBy.tail.tails, v ≠ [] → v = introducer ∨ ¬Opens v := by decide
  intro v hv hne hpre
  rcases key v hv hne with rfl | hv
  · exact h hpre
  · exact hv (hx.of_isPrefix hpre)

end Word

namespace Keyword

variable {k t x z : Text}

/-- A keyword has no more places in a text that goes on with an end that bars and lacks it, however
the text may have ended before. -/
theorem count_append_le (hk : endsInLetter k = true) (hbars : Bars x k) (hlacks : ¬k <:+: x)
    (hz : Opens z) : count k (t ++ x) ≤ count k (t ++ z) := by
  induction t with
  | nil =>
    rw [List.nil_append, count_eq_zero_of_lacks hlacks]
    exact Nat.zero_le _
  | cons c t ih =>
    have hread : (read? k (c :: (t ++ x))).isSome → (read? k (c :: (t ++ z))).isSome := by
      intro h
      obtain ⟨b, hb⟩ := Option.isSome_iff_exists.mp h
      obtain ⟨heq, hopen⟩ := (read?_eq_some_iff_opens hk).mp hb
      rw [← List.cons_append] at heq
      -- the keyword ends in front of `x`, so it stands in front of `z` as well
      obtain ⟨d, hd⟩ : k <+: c :: t := by
        rcases prefix_append_cases ⟨b, heq.symm⟩ with hp | ⟨y, hy, rfl, hyx⟩
        · exact hp
        · have := hbars.eq (List.cons_ne_nil c t) ⟨b, heq.symm⟩ (List.prefix_append _ y)
          rw [List.self_eq_append_right] at this
          exact absurd this hy
      have hdx : b = d ++ x := by
        rw [← hd, List.append_assoc] at heq
        exact (List.append_cancel_left heq).symm
      rw [← List.cons_append, ← hd, List.append_assoc, read?_append hk]
      · rfl
      · rw [hdx] at hopen
        exact (hopen.of_isPrefix (List.prefix_append d x)).append hz
    rw [List.cons_append, List.cons_append, count, count]
    split
    · next h =>
      rw [if_pos (hread h)]
      omega
    · omega

end Keyword

namespace Predicate

variable {s : Schema} {t f x behind : Text} {w : Terminator}

/-- No identifier of a plain schema reaches beyond the text of a criterion into the word that ends
it, whatever follows. -/
theorem fits_word_append (hs : s.IsPlain) (h : splitCriterion s t = (f, some (w, behind)))
    (y : Text) : s.Fits f (w.word ++ y) := by
  have ht : t = f ++ (w.word ++ behind) := by rw [eq_of_splitCriterion h, List.append_assoc]
  intro p hp hpre
  rw [← List.append_assoc] at hpre
  rcases prefix_append_cases hpre with hin | ⟨z, -, hz, -⟩
  · refine fits_of_splitCriterion h ht p hp (hin.trans ?_)
    exact (List.prefix_append_right_inj f).mpr (List.prefix_append w.word behind)
  · refine absurd ?_ ((hs.property p hp).not_isInfix_word w)
    rw [hz]
    exact ⟨f, z, rfl⟩

/-- Nothing ends a criterion in which no word that could stands. -/
theorem splitCriterion_of_lacks (h : ∀ w : Terminator, ¬w.word <:+: t) :
    splitCriterion s t = (t, none) := by
  obtain ⟨head, ht, -⟩ := exists_splitCriterion_eq s t
  have hin : s.behindHead t <:+: t := (List.IsSuffix.isInfix ⟨head, ht.symm⟩)
  rw [splitCriterion_eq_self_iff]
  exact Keyword.splitAtFirst?_eq_none_of_lacks fun w _ hw ↦ h w (hw.trans hin)

end Predicate

/-- The small schema is plain. -/
theorem Schema.isPlain_sample : Schema.sample.IsPlain := by decide +kernel

end QueryNames
