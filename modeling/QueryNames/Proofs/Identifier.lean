import Mathlib.Data.List.Nodup
import QueryNames.Entity.Separable
import QueryNames.Proofs.Seams
import QueryNames.Proofs.Search

/-!
# Identifiers in a text

An identifier begins with no small letter, so it opens wherever it stands. The property at the head
of a text is the one with the longest identifier there, which in a separable schema is the only one.
What a separable schema promises about the humps of its identifiers is turned into what reading asks
for: the word at the head of an identifier is none of the words that could stand in its place, and
`By` has no place in it.
-/

namespace QueryNames

namespace Text

/-- Capitalising turns a small letter into a capital one. -/
theorem isUpper_toUpper {c : Char} (h : c.isLower = true) : c.toUpper.isUpper = true := by
  unfold Char.isLower at h
  rw [Bool.and_eq_true, decide_eq_true_eq, decide_eq_true_eq] at h
  have hlow : 97 ≤ c.val.toNat := UInt32.le_iff_toNat_le.mp h.1
  have hhigh : c.val.toNat ≤ 122 := UInt32.le_iff_toNat_le.mp h.2
  have hval : c.toUpper.val.toNat = c.val.toNat - 32 := by
    have hif : 'a'.val ≤ c.val ∧ c.val ≤ 'z'.val := h
    unfold Char.toUpper
    rw [dif_pos hif]
    change (c.val + 4294967264).toNat = _
    rw [UInt32.toNat_add]
    change (c.val.toNat + 4294967264) % 4294967296 = _
    omega
  unfold Char.isUpper
  rw [decide_eq_true_eq, ge_iff_le, UInt32.le_iff_toNat_le, UInt32.le_iff_toNat_le, hval]
  change 65 ≤ _ ∧ _ ≤ 90
  omega

/-- Capitalising leaves every other character as it is. -/
theorem toUpper_of_isLower_eq_false {c : Char} (h : c.isLower = false) : c.toUpper = c := by
  unfold Char.toUpper
  rw [dif_neg]
  intro hc
  unfold Char.isLower at h
  rw [← Bool.not_eq_true, Bool.and_eq_true, decide_eq_true_eq, decide_eq_true_eq] at h
  exact h hc

/-- Capitalising leaves no small letter. -/
theorem isLower_toUpper (c : Char) : c.toUpper.isLower = false := by
  by_cases h : c.isLower = true
  · exact isLower_eq_false_of_isUpper (isUpper_toUpper h)
  · rw [Bool.not_eq_true] at h
    rw [toUpper_of_isLower_eq_false h, h]

/-- Capitalising a name character gives a name character. -/
theorem isNameChar_toUpper {c : Char} (hc : isNameChar c = true) :
    isNameChar c.toUpper = true := by
  by_cases h : c.isLower = true
  · unfold isNameChar Char.isAlphanum Char.isAlpha
    rw [isUpper_toUpper h]
    rfl
  · rw [Bool.not_eq_true] at h
    rwa [toUpper_of_isLower_eq_false h]

/-- A capital letter never belongs to the piece before it. -/
theorem pieces_append_of_isUpper (x y : Text) {c : Char} (hc : c.isUpper = true) :
    pieces (x ++ c :: y) = pieces x ++ pieces (c :: y) :=
  pieces_append (isSeam_cons_of_isUpper y hc)

/-- The first piece of a text with a capital letter at its head is the word there. -/
theorem pieces_cons_of_isUpper {c : Char} (t : Text) (hc : c.isUpper = true) :
    pieces (c :: t) =
      .hump .capitalised (headWord (c :: t)) :: pieces (t.dropWhile Char.isLower) := by
  rw [pieces, Hump.ofHead?, if_pos hc]
  rfl

/-- A capital word has a place in a text only if it is one of its pieces. -/
theorem count_eq_zero_of_notMem_pieces {k t : Text} (hk : isCapitalWord k = true)
    (h : k ∉ (pieces t).map Piece.text) : Keyword.count k t = 0 := by
  by_contra hne
  obtain ⟨x, y, rfl, hy⟩ := Keyword.exists_headWord_of_count_ne_zero hk hne
  cases y with
  | nil =>
    rw [headWord_nil] at hy
    rw [← hy] at hk
    cases hk
  | cons c y =>
    have hc : c.isUpper = true := by
      rw [← hy, headWord, isCapitalWord, Bool.and_eq_true] at hk
      exact hk.1
    apply h
    rw [pieces_append_of_isUpper x y hc, pieces_cons_of_isUpper y hc, hy]
    simp [Piece.text]

end Text

namespace Property

instance (piece : Piece) : Decidable (∀ ds, piece ≠ .hump .digits ds) :=
  match piece with
  | .hump .digits ds => isFalse fun h ↦ h ds rfl
  | .hump .capitalised _ | .hump .small _ | .hump .underscores _ | .stray _ => isTrue nofun

instance (p : Property) : Decidable p.HeadIsFree := inferInstanceAs (Decidable (∀ _ ∈ _, _ ∧ _))

instance (p : Property) : Decidable p.LacksIntroducer := inferInstanceAs (Decidable (_ ∉ _))

/-- An identifier opens wherever it stands. -/
theorem opens_identifier (p : Property) : Text.Opens p.identifier := by
  unfold identifier
  split
  · exact Text.opens_nil
  · next c rest _ => exact Text.opens_cons.mpr (Text.isLower_toUpper c)

/-- An identifier consists of name characters. -/
theorem IsNamed.all_isNameChar {p : Property} (h : p.IsNamed) :
    p.identifier.all Text.isNameChar = true := by
  obtain ⟨-, hall⟩ := h
  unfold identifier
  split
  · rfl
  · next c rest he =>
    rw [he, List.all_cons, Bool.and_eq_true] at hall
    rw [List.all_cons, Bool.and_eq_true]
    exact ⟨Text.isNameChar_toUpper hall.1, hall.2⟩

/-- The word at the head of an identifier is none of the reserved ones. -/
theorem HeadIsFree.headWord_notMem {p : Property} (h : p.HeadIsFree) :
    Text.headWord p.identifier ∉ reservedHeads := by
  intro hm
  have hcap : Text.isCapitalWord (Text.headWord p.identifier) = true := by
    have hall : ∀ k ∈ reservedHeads, Text.isCapitalWord k = true := by decide
    exact hall _ hm
  cases hi : p.identifier with
  | nil =>
    rw [hi, Text.headWord_nil] at hcap
    cases hcap
  | cons c t =>
    rw [hi, Text.headWord, Text.isCapitalWord, Bool.and_eq_true] at hcap
    have hp := h (.hump .capitalised (Text.headWord p.identifier)) (by
      rw [hi, Text.pieces_cons_of_isUpper t hcap.1]
      rfl)
    exact hp.2 hm

/-- No digit stands at the head of an identifier. -/
theorem HeadIsFree.isDigit_eq_false {p : Property} (h : p.HeadIsFree) {c : Char}
    (hc : c ∈ p.identifier.head?) : c.isDigit = false := by
  cases hi : p.identifier with
  | nil => simp [hi] at hc
  | cons d t =>
    obtain rfl : d = c := by simpa [hi] using hc
    by_contra hd
    rw [Bool.not_eq_false] at hd
    have hupper : ¬d.isUpper = true := by
      intro hu
      rw [Text.isDigit_eq_false_of_isUpper hu] at hd
      cases hd
    have hlower : ¬d.isLower = true := by
      rw [Text.isLower_eq_false_of_isDigit hd]
      exact Bool.false_ne_true
    have hkind : Hump.ofHead? d = some .digits := by
      rw [Hump.ofHead?, if_neg hupper, if_neg hlower, if_pos hd]
    have hp := h (.hump .digits (d :: t.takeWhile Hump.digits.continues)) (by
      rw [hi, Text.pieces, hkind]
      rfl)
    exact hp.1 _ rfl

/-- The word `By` has no place in an identifier that lacks it. -/
theorem LacksIntroducer.count_eq_zero {p : Property} (h : p.LacksIntroducer) :
    Keyword.count Word.introducer p.identifier = 0 :=
  Text.count_eq_zero_of_notMem_pieces (by decide) h

/-- The word `By` is not the word at the head of an identifier that lacks it. -/
theorem LacksIntroducer.headWord_ne {p : Property} (h : p.LacksIntroducer) :
    Text.headWord p.identifier ≠ Word.introducer := by
  intro he
  have hz := h.count_eq_zero
  have hs := (Keyword.isSome_read?_iff (by decide)).mpr he
  cases hi : p.identifier with
  | nil =>
    rw [hi] at he
    cases he
  | cons c t =>
    rw [hi] at hz hs
    rw [Keyword.count, hs] at hz
    simp at hz

end Property

namespace Schema

instance (s : Schema) : Decidable s.IsPrefixFree := inferInstanceAs (Decidable (∀ _ ∈ _, _))

/-- Properties with the same identifier are the same. -/
theorem eq_of_identifier_eq {s : Schema} {p q : Property} (hp : p ∈ s.properties)
    (hq : q ∈ s.properties) (h : p.identifier = q.identifier) : p = q :=
  List.inj_on_of_nodup_map s.nodup_identifiers hp hq h

/-- A declared property can be read exactly where its identifier stands. -/
theorem isSome_strip?_iff {s : Schema} {p : Property} (hp : p ∈ s.properties) (t : Text) :
    (p.strip? t).isSome ↔ p.identifier <+: t := by
  simp only [Option.isSome_iff_exists, Property.strip?_eq_some_iff, (s.named p hp).1, ne_eq,
    not_false_eq_true, true_and]
  exact exists_congr fun r ↦ eq_comm

/-- The property at the head of a text is the one with the longest identifier there. -/
theorem headProperty?_eq_some_iff {s : Schema} {t behind : Text} {p : Property} :
    s.headProperty? t = some (p, behind) ↔
      p ∈ s.properties ∧ t = p.identifier ++ behind ∧
        ∀ q ∈ s.properties, q.identifier <+: t → q.identifier.length ≤ p.identifier.length := by
  rw [headProperty?, Text.longest?_eq_some_iff]
  · refine and_congr_right fun hp ↦ and_congr ?_ (forall₂_congr fun q hq ↦ ?_)
    · rw [Property.strip?_eq_some_iff, and_iff_right (s.named p hp).1]
    · rw [isSome_strip?_iff hq, Property.length_identifier, Property.length_identifier]
  · intro p hp q hq hpt hqt hlen
    rw [isSome_strip?_iff hp] at hpt
    rw [isSome_strip?_iff hq] at hqt
    rw [← Property.length_identifier, ← Property.length_identifier] at hlen
    exact eq_of_identifier_eq hp hq
      ((List.prefix_of_prefix_length_le hpt hqt hlen.le).eq_of_length hlen)

/-- No property is read where no identifier stands. -/
theorem headProperty?_eq_none_iff {s : Schema} {t : Text} :
    s.headProperty? t = none ↔ ∀ p ∈ s.properties, ¬p.identifier <+: t := by
  rw [headProperty?, Text.longest?_eq_none_iff]
  refine forall₂_congr fun p hp ↦ ?_
  rw [← isSome_strip?_iff hp, Option.not_isSome_iff_eq_none]

/-- At the end of a text there is no property. -/
@[simp] theorem headProperty?_nil (s : Schema) : s.headProperty? [] = none := by
  rw [headProperty?_eq_none_iff]
  intro p hp h
  exact (s.named p hp).identifier_ne_nil (List.prefix_nil.mp h)

/-- No identifier at the head of a text with another behind it reaches into the other. -/
def Fits (s : Schema) (t y : Text) : Prop :=
  ∀ p ∈ s.properties, p.identifier <+: t ++ y → p.identifier.length ≤ t.length

instance (s : Schema) (t y : Text) : Decidable (s.Fits t y) :=
  inferInstanceAs (Decidable (∀ _ ∈ _, _))

/-- An identifier is read where no longer one stands. -/
theorem Fits.headProperty?_append {s : Schema} {p : Property} {y : Text} (h : s.Fits p.identifier y)
    (hp : p ∈ s.properties) : s.headProperty? (p.identifier ++ y) = some (p, y) :=
  headProperty?_eq_some_iff.mpr ⟨hp, rfl, h⟩

/-- Where no identifier is the beginning of another, none reaches beyond an identifier. -/
theorem IsPrefixFree.fits {s : Schema} (hs : s.IsPrefixFree) {p : Property} (hp : p ∈ s.properties)
    (x y : Text) : s.Fits (p.identifier ++ x) y := by
  intro q hq hqt
  have heq : q = p := by
    rw [List.append_assoc] at hqt
    rcases List.prefix_or_prefix_of_prefix hqt (List.prefix_append p.identifier _) with h | h
    · exact hs q hq p hp h
    · exact (hs p hp q hq h).symm
  rw [heq, List.length_append]
  omega

/-- Where no identifier is the beginning of another, an identifier is read wherever it stands. -/
theorem IsPrefixFree.headProperty?_append {s : Schema} (hs : s.IsPrefixFree) {p : Property}
    (hp : p ∈ s.properties) (t : Text) : s.headProperty? (p.identifier ++ t) = some (p, t) := by
  have hfits := hs.fits hp [] t
  rw [List.append_nil] at hfits
  exact hfits.headProperty?_append hp

/-- The property at the head of a text that begins with an identifier is at least as long. -/
theorem Fits.exists_headProperty?_eq {s : Schema} {p : Property} {x y : Text}
    (h : s.Fits (p.identifier ++ x) y) (hp : p ∈ s.properties) :
    ∃ q ∈ s.properties, ∃ z w, p.identifier ++ x = q.identifier ++ w ∧ x = z ++ w ∧
      s.headProperty? (q.identifier ++ (w ++ y)) = some (q, w ++ y) := by
  have hpre : p.identifier <+: (p.identifier ++ x) ++ y :=
    (List.prefix_append _ x).trans (List.prefix_append _ y)
  cases hh : s.headProperty? ((p.identifier ++ x) ++ y) with
  | none => exact absurd hpre (headProperty?_eq_none_iff.mp hh p hp)
  | some m =>
    obtain ⟨q, r⟩ := m
    obtain ⟨hq, heq, hmax⟩ := headProperty?_eq_some_iff.mp hh
    have hlong : p.identifier.length ≤ q.identifier.length := hmax p hp hpre
    have hshort : q.identifier.length ≤ (p.identifier ++ x).length := h q hq ⟨r, heq.symm⟩
    obtain ⟨w, hw⟩ := List.prefix_of_prefix_length_le ⟨r, heq.symm⟩
      (List.prefix_append (p.identifier ++ x) y) hshort
    obtain ⟨z, hz⟩ := List.prefix_of_prefix_length_le (List.prefix_append p.identifier x) ⟨w, hw⟩
      hlong
    have hx : x = z ++ w := by
      rw [← hz, List.append_assoc] at hw
      exact (List.append_cancel_left hw).symm
    have hr : r = w ++ y := by
      rw [← hw, List.append_assoc] at heq
      exact (List.append_cancel_left heq).symm
    rw [← hw, List.append_assoc, hr] at hh
    exact ⟨q, hq, z, w, hw.symm, hx, hh⟩

/-- A schema with a text and a date. -/
def sample : Schema :=
  ⟨[⟨"text".toList, .string⟩, ⟨"date".toList, .date⟩], by decide, by decide⟩

/-- A schema with properties that begin like words of the grammar, two of them alike. -/
def keywordLike : Schema :=
  ⟨[⟨"order".toList, .other⟩, ⟨"orderId".toList, .boxedNumber⟩, ⟨"anders".toList, .string⟩],
    by decide, by decide⟩

end Schema

end QueryNames
