import QueryNames.Proofs.Identifier
import QueryNames.Query
import QueryNames.Reading.Subject

/-!
# Reading a written subject

The words in front of the property are read back whatever opens behind them, as long as it is not
itself taken for one of these words or for digits. What is left is decided at the property: it is
read if `By` follows and no longer identifier stands there.
-/

namespace QueryNames

open Text

namespace Text

/-- The digits of a number are digits. -/
theorem all_isDigit_numeral (n : Nat) : ∀ c ∈ numeral n, c.isDigit = true :=
  fun _ hc ↦ Nat.isDigit_of_mem_toDigits (by decide) (by decide) hc

/-- A number has digits. -/
theorem numeral_ne_nil (n : Nat) : numeral n ≠ [] := Nat.toDigits_ne_nil

/-- The digits of a number end where something else than a digit follows. -/
theorem digits_append {ds t : Text} (hds : ∀ c ∈ ds, c.isDigit = true)
    (ht : ∀ c ∈ t.head?, c.isDigit = false) :
    digits (ds ++ t) = ds ∧ behindDigits (ds ++ t) = t := by
  rw [digits, behindDigits, List.takeWhile_append_of_pos hds, List.dropWhile_append_of_pos hds]
  cases t with
  | nil => simp
  | cons c t =>
    have hc : c.isDigit = false := ht c rfl
    simp [hc]

end Text

namespace Limit

/-- The digits behind the limit word. -/
def digits (l : Limit) : Text := (l.count?.map numeral).getD []

/-- A number in bounds is the limit of its digits. -/
theorem ofDigits?_numeral {n : Nat} (h : 0 < n ∧ n ≤ largest) :
    ofDigits? (numeral n) = some (.explicit n) := by
  have hne : numeral n ≠ [] := numeral_ne_nil n
  rw [ofDigits?, if_neg hne]
  simp only [numeralValue_numeral, if_pos h]

/-- A limit whose number is in bounds is given by its digits. -/
theorem ofDigits?_digits {l : Limit} (h : ∀ n, l = .explicit n → 0 < n ∧ n ≤ largest) :
    ofDigits? l.digits = some l := by
  cases l with
  | implicit => rfl
  | explicit n => exact ofDigits?_numeral (h n rfl)

/-- A limit has digits exactly when it has a number. -/
theorem digits_ne_nil_iff {l : Limit} : l.digits ≠ [] ↔ l.count?.isSome := by
  cases l with
  | implicit => simp [digits, count?]
  | explicit n => simp [digits, count?, numeral_ne_nil]

/-- The digits of a limit are digits. -/
theorem all_isDigit_digits (l : Limit) : ∀ c ∈ l.digits, c.isDigit = true := by
  cases l with
  | implicit =>
    intro c hc
    cases hc
  | explicit n => exact all_isDigit_numeral n

end Limit

namespace LimitWord

/-- Every limit word is in the list of all. -/
theorem mem_all (w : LimitWord) : w ∈ all := by cases w <;> decide

/-- Limit words are capital words. -/
theorem isCapitalWord_word (w : LimitWord) : isCapitalWord w.word = true := by cases w <;> decide

/-- The word at the head of a text that begins with a limit word is the limit word. -/
theorem headWord_word_append (w : LimitWord) {t : Text} (ht : Opens t) :
    headWord (w.word ++ t) = w.word := by
  have hne : w.word ≠ [] := by cases w <;> decide
  rw [headWord_append hne ht, headWord_of_isCapitalWord w.isCapitalWord_word]

/-- No limit word asks for different results. -/
theorem word_ne_distinct (w : LimitWord) : w.word ≠ Word.distinct := by cases w <;> decide

/-- The two limit words differ. -/
theorem eq_of_word_eq {w w' : LimitWord} (h : w.word = w'.word) : w = w' := by
  revert h
  cases w <;> cases w' <;> decide

end LimitWord

namespace Limit

/-- The digits of a limit and what opens behind them open. -/
theorem opens_digits_append (l : Limit) {t : Text} (ht : Opens t) : Opens (l.digits ++ t) := by
  refine Opens.append ?_ ht
  intro c hc
  exact isLower_eq_false_of_isDigit (l.all_isDigit_digits c (List.mem_of_mem_head? hc))

/-- The written form of a limit is its word with its digits behind it. -/
theorem text_append (w : LimitWord) (l : Limit) (t : Text) :
    text w l ++ t = w.word ++ (l.digits ++ t) :=
  List.append_assoc _ _ _

/-- A limit opens. -/
theorem opens_text_append (w : LimitWord) (l : Limit) (t : Text) : Opens (text w l ++ t) := by
  rw [text_append]
  exact opens_append_of_isCapitalWord w.isCapitalWord_word _

end Limit

namespace Subject

/-- What stands in front of the property. -/
def front (w : LimitWord) (subject : Subject) : Text :=
  (if subject.distinct then Word.distinct else []) ++ (subject.limit.map (Limit.text w)).getD []

/-- What stands behind the words in front when the criteria are `t`. -/
def rear (subject : Subject) (t : Text) : Text :=
  (subject.property.map Property.identifier).getD [] ++ (Word.introducer ++ t)

/-- A subject with the criteria behind it is its front and its rear. -/
theorem text_append_introducer (w : LimitWord) (subject : Subject) (t : Text) :
    subject.text w ++ (Word.introducer ++ t) = subject.front w ++ subject.rear t := by
  rw [text, front, rear]
  simp only [List.append_assoc]

/-- A text can stand behind the words of a subject without being taken for one of them. -/
structure Admits (subject : Subject) (t : Text) : Prop where
  opens : Opens t
  distinct : subject.distinct = false → subject.limit = none → headWord t ≠ Word.distinct
  limitWord : subject.limit = none → ∀ w : LimitWord, headWord t ≠ w.word
  digit : subject.limit ≠ none → ∀ c ∈ t.head?, c.isDigit = false

/-- The number of a subject is in bounds. -/
def IsBounded (subject : Subject) : Prop :=
  ∀ n, subject.limit = some (.explicit n) → 0 < n ∧ n ≤ Limit.largest

variable {subject : Subject} {t : Text} {w : LimitWord}

/-- A limit word is read with the digits behind it. -/
theorem readLimit_word_append (w : LimitWord) (ht : Opens t) :
    readLimit (w.word ++ t) = (some (digits t), behindDigits t) := by
  have hr : Keyword.readLongest? LimitWord.word LimitWord.all (w.word ++ t) = some (w, t) := by
    refine longest?_eq_some_of_unique (LimitWord.mem_all w)
      (Keyword.read?_append (endsInLetter_of_isCapitalWord w.isCapitalWord_word) ht)
      fun w' _ d hd ↦ ?_
    have hw := (Keyword.isSome_read?_iff w'.isCapitalWord_word).mp (Option.isSome_of_eq_some hd)
    rw [w.headWord_word_append ht] at hw
    exact (LimitWord.eq_of_word_eq hw).symm
  simp only [readLimit, hr]

/-- The word that asks for different results is read in front of what it does not stand at the head
of. -/
theorem readDistinct_word_append {d : Bool} (ht : Opens t)
    (hno : d = false → headWord t ≠ Word.distinct) :
    readDistinct ((if d then Word.distinct else []) ++ t) = (d, t) := by
  cases d with
  | true =>
    have hr := Keyword.read?_append (k := Word.distinct) (by decide) ht
    simp only [if_true, readDistinct, hr]
  | false =>
    have hr : Keyword.read? Word.distinct t = none :=
      (Keyword.read?_eq_none_iff (by decide)).mpr (hno rfl)
    simp only [Bool.false_eq_true, if_false, List.nil_append, readDistinct, hr]

/-- The limit is read back. -/
theorem readLimit_append (h : subject.Admits t) :
    readLimit ((subject.limit.map (Limit.text w)).getD [] ++ t) =
      (subject.limit.map Limit.digits, t) := by
  cases hl : subject.limit with
  | none =>
    have hr : Keyword.readLongest? LimitWord.word LimitWord.all t = none :=
      Keyword.readLongest?_eq_none_iff.mpr fun w' _ ↦
        (Keyword.read?_eq_none_iff w'.isCapitalWord_word).mpr (h.limitWord hl w')
    simp only [Option.map_none, Option.getD_none, List.nil_append, readLimit, hr]
  | some l =>
    obtain ⟨hds, hbehind⟩ := digits_append l.all_isDigit_digits
      (h.digit (by rw [hl]; exact Option.some_ne_none l))
    rw [Option.map_some, Option.map_some, Option.getD_some, Limit.text_append,
      readLimit_word_append w (l.opens_digits_append h.opens), hds, hbehind]

/-- The word that asks for different results is read back. -/
theorem readDistinct_append (h : subject.Admits t) :
    readDistinct (subject.front w ++ t) =
      (subject.distinct, (subject.limit.map (Limit.text w)).getD [] ++ t) := by
  rw [front, List.append_assoc]
  cases hl : subject.limit with
  | none => exact readDistinct_word_append h.opens fun hd ↦ h.distinct hd hl
  | some l =>
    refine readDistinct_word_append (l.opens_text_append w t) fun _ ↦ ?_
    rw [Option.map_some, Option.getD_some, Limit.text_append,
      w.headWord_word_append (l.opens_digits_append h.opens)]
    exact w.word_ne_distinct

private theorem map_ofDigits?_digits (h : subject.IsBounded) :
    (subject.limit.map Limit.digits).map (fun ds ↦ (Limit.ofDigits? ds).getD .implicit) =
      subject.limit := by
  cases hl : subject.limit with
  | none => rfl
  | some l =>
    have := Limit.ofDigits?_digits (l := l) fun n hn ↦ h n (by rw [hl, hn])
    rw [Option.map_some, Option.map_some, this, Option.getD_some]

private theorem limitDefects_digits (h : subject.IsBounded) :
    limitDefects (subject.limit.map Limit.digits) = [] := by
  cases hl : subject.limit with
  | none => rfl
  | some l =>
    have := Limit.ofDigits?_digits (l := l) fun n hn ↦ h n (by rw [hl, hn])
    simp [limitDefects, this]

/-- Where `By` stands behind the front, the subject has no property. -/
theorem read_front_introducer {s : Schema} (hb : subject.IsBounded)
    (h : subject.Admits (Word.introducer ++ t)) (ht : Opens t) :
    read s (subject.front w ++ (Word.introducer ++ t)) =
      ⟨⟨subject.distinct, subject.limit, none⟩, [], .resume t⟩ := by
  have hr : Keyword.read? Word.introducer (Word.introducer ++ t) = some t :=
    Word.read?_introducer_append ht
  simp only [read, readDistinct_append h, readLimit_append h, hr, map_ofDigits?_digits hb,
    limitDefects_digits hb]

/-- Where a property and `By` stand behind the front, the property is read unless a longer
identifier stands there. -/
theorem read_front_property {s : Schema} {p : Property} (hb : subject.IsBounded)
    (h : subject.Admits (p.identifier ++ (Word.introducer ++ t)))
    (hp : headWord p.identifier ≠ Word.introducer) (ht : Opens t)
    (hhead : s.headProperty? (p.identifier ++ (Word.introducer ++ t)) =
      some (p, Word.introducer ++ t)) :
    read s (subject.front w ++ (p.identifier ++ (Word.introducer ++ t))) =
      ⟨⟨subject.distinct, subject.limit, some p⟩, [], .resume t⟩ := by
  have hne : p.identifier ≠ [] := by
    have hmem := (Schema.eq_of_headProperty? hhead).1
    exact (s.named p hmem).identifier_ne_nil
  have hno : Keyword.read? Word.introducer (p.identifier ++ (Word.introducer ++ t)) = none := by
    rw [Keyword.read?_eq_none_iff Word.isCapitalWord_introducer,
      headWord_append hne (Word.opens_introducer_append t)]
    exact hp
  have hr : Keyword.read? Word.introducer (Word.introducer ++ t) = some t :=
    Word.read?_introducer_append ht
  have hprop : readProperty? s (p.identifier ++ (Word.introducer ++ t)) = some (p, t) := by
    simp only [readProperty?, hhead, Option.bind_some, hr, Option.map_some]
  simp only [read, readDistinct_append h, readLimit_append h, hno, hprop, map_ofDigits?_digits hb,
    limitDefects_digits hb]

/-- A subject is read back in front of `By` unless a longer identifier stands in its place. -/
theorem read_text_append_of_fits {s : Schema} (hb : subject.IsBounded)
    (ha : subject.Admits (subject.rear t)) (ht : Opens t)
    (hp : ∀ p ∈ subject.property, p ∈ s.properties ∧ headWord p.identifier ≠ Word.introducer ∧
      s.Fits p.identifier (Word.introducer ++ t)) :
    read s (subject.text w ++ (Word.introducer ++ t)) = ⟨subject, [], .resume t⟩ := by
  rw [text_append_introducer]
  obtain ⟨distinct, limit, property⟩ := subject
  cases property with
  | none => exact read_front_introducer hb ha ht
  | some p =>
    obtain ⟨hmem, hne, hfits⟩ := hp p rfl
    exact read_front_property hb ha hne ht (hfits.headProperty?_append hmem)

/-- A subject that breaks off behind its front waits for a property or `By`. -/
theorem read_front {s : Schema} (hb : subject.IsBounded) (h : subject.Admits []) :
    read s (subject.front w) =
      ⟨⟨subject.distinct, subject.limit, none⟩, [.missingBy],
        .stop ⟨.subject subject.distinct subject.limit.isSome
          (subject.limit.bind Limit.count?).isSome, []⟩⟩ := by
  have h1 := readDistinct_append (w := w) h
  have h2 := readLimit_append (w := w) h
  rw [List.append_nil] at h1
  have hno : Keyword.read? Word.introducer [] = none := rfl
  have hprop : readProperty? s [] = none := by
    simp only [readProperty?, Schema.headProperty?_nil, Option.bind_none]
  have hnumber : (subject.limit.map Limit.digits).any (· ≠ []) =
      (subject.limit.bind Limit.count?).isSome := by
    cases subject.limit with
    | none => rfl
    | some l =>
      rw [Option.map_some, Option.any_some, Option.bind_some, Bool.eq_iff_iff, decide_eq_true_eq]
      exact Limit.digits_ne_nil_iff
  simp only [read, h1, h2, hno, hprop, Keyword.splitAtFirst?, Schema.headProperty?_nil,
    map_ofDigits?_digits hb, limitDefects_digits hb, hnumber, List.nil_append]

/-- A subject that breaks off behind its property waits for `By`. -/
theorem read_front_property_end {s : Schema} {p : Property} (hb : subject.IsBounded)
    (h : subject.Admits p.identifier) (hp : headWord p.identifier ≠ Word.introducer)
    (hcount : Keyword.count Word.introducer p.identifier = 0)
    (hhead : s.headProperty? p.identifier = some (p, [])) :
    read s (subject.front w ++ p.identifier) =
      ⟨⟨subject.distinct, subject.limit, some p⟩, [.missingBy], .stop ⟨.introducer, []⟩⟩ := by
  have hno : Keyword.read? Word.introducer p.identifier = none :=
    (Keyword.read?_eq_none_iff (by decide)).mpr hp
  have hprop : readProperty? s p.identifier = none := by
    simp only [readProperty?, hhead, Option.bind_some]
    rfl
  simp only [read, readDistinct_append h, readLimit_append h, hno, hprop,
    Keyword.splitAtFirst?_eq_none_of_count hcount, hhead, map_ofDigits?_digits hb,
    limitDefects_digits hb, List.nil_append]

/-! ### Subjects over a separable schema -/

section Separable

variable {s : Schema} {p : Property}

/-- Nothing may stand behind the words of any subject. -/
theorem admits_nil (subject : Subject) : subject.Admits [] where
  opens := opens_nil
  distinct _ _ := by decide
  limitWord _ w := by cases w <;> decide
  digit _ c hc := by cases hc

/-- `By` may stand behind the words of any subject. -/
theorem admits_introducer (subject : Subject) (ht : Opens t) :
    subject.Admits (Word.introducer ++ t) := by
  have hhead : headWord (Word.introducer ++ t) = Word.introducer := by
    rw [headWord_append (by decide) ht,
      headWord_of_isCapitalWord Word.isCapitalWord_introducer]
  refine ⟨Word.opens_introducer_append t, fun _ _ ↦ ?_, fun _ w ↦ ?_,
    fun _ ↦ Word.isDigit_head_introducer_append t⟩
  · rw [hhead]
    decide
  · rw [hhead]
    cases w <;> decide

/-- A property may stand behind the words of any subject. -/
theorem admits_property (subject : Subject) (hs : s.IsSeparable) (hp : p ∈ s.properties)
    (ht : Opens t) : subject.Admits (p.identifier ++ t) := by
  have hne := (s.named p hp).identifier_ne_nil
  have hfree := hs.headIsFree p hp
  have hhead : headWord (p.identifier ++ t) = headWord p.identifier := headWord_append hne ht
  refine ⟨(opens_append_of_ne_nil hne).mpr p.opens_identifier, fun _ _ he ↦ ?_,
    fun _ w he ↦ ?_, fun _ c hc ↦ ?_⟩
  · rw [hhead] at he
    apply hfree.headWord_notMem
    rw [he]
    decide
  · rw [hhead] at he
    apply hfree.headWord_notMem
    rw [he]
    cases w <;> decide
  · rw [List.head?_append_of_ne_nil _ hne] at hc
    exact hfree.isDigit_eq_false hc

/-- The rear of any subject may stand behind its words. -/
theorem admits_rear (hs : s.IsSeparable)
    (hp : ∀ p, subject.property = some p → p ∈ s.properties) (ht : Opens t) :
    subject.Admits (subject.rear t) := by
  rw [rear]
  cases hprop : subject.property with
  | none => exact admits_introducer subject ht
  | some p => exact admits_property subject hs (hp p hprop) (Word.opens_introducer_append t)

/-- A subject is read back in front of `By`. -/
theorem read_text_append (hs : s.IsSeparable) (hb : subject.IsBounded)
    (hp : ∀ p, subject.property = some p → p ∈ s.properties) (ht : Opens t) :
    read s (subject.text w ++ (Word.introducer ++ t)) = ⟨subject, [], .resume t⟩ := by
  apply read_text_append_of_fits hb (admits_rear hs hp ht) ht
  intro p hprop
  have hmem := hp p hprop
  have hfits := hs.isPrefixFree.fits hmem [] (Word.introducer ++ t)
  rw [List.append_nil] at hfits
  exact ⟨hmem, (hs.lacksIntroducer p hmem).headWord_ne, hfits⟩

/-- How reading a subject breaks off where nothing follows its text. -/
def breakOff (subject : Subject) : Edge :=
  match subject.property with
  | some _ => ⟨.introducer, []⟩
  | none =>
    ⟨.subject subject.distinct subject.limit.isSome (subject.limit.bind Limit.count?).isSome, []⟩

/-- A subject is read back at the end of a text. -/
theorem read_text (hs : s.IsSeparable) (hb : subject.IsBounded)
    (hp : ∀ p, subject.property = some p → p ∈ s.properties) :
    read s (subject.text w) = ⟨subject, [.missingBy], .stop subject.breakOff⟩ := by
  obtain ⟨distinct, limit, property⟩ := subject
  cases property with
  | none =>
    have htext : text w ⟨distinct, limit, none⟩ = front w ⟨distinct, limit, none⟩ :=
      List.append_nil _
    rw [htext]
    exact read_front hb (admits_nil _)
  | some p =>
    have hmem := hp p rfl
    have hhead := hs.isPrefixFree.headProperty?_append hmem []
    have hadmits := admits_property ⟨distinct, limit, some p⟩ hs hmem opens_nil
    rw [List.append_nil] at hhead hadmits
    exact read_front_property_end hb hadmits (hs.lacksIntroducer p hmem).headWord_ne
      (hs.lacksIntroducer p hmem).count_eq_zero hhead

/-- The text of a subject may stand behind a verb. -/
theorem opens_text_append (hp : ∀ p, subject.property = some p → p ∈ s.properties)
    (ht : Opens t) : Opens (subject.text w ++ t) := by
  obtain ⟨distinct, limit, property⟩ := subject
  have hd : Opens (if distinct then Word.distinct else []) := by cases distinct <;> decide
  have hl : Opens ((limit.map (Limit.text w)).getD []) := by
    cases limit with
    | none => exact opens_nil
    | some l =>
      have := l.opens_text_append w []
      rwa [List.append_nil] at this
  have hprop : Opens ((property.map Property.identifier).getD []) := by
    cases property with
    | none => exact opens_nil
    | some p => exact p.opens_identifier
  exact ((hd.append hl).append hprop).append ht

end Separable

end Subject

end QueryNames
