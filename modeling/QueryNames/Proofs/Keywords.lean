import Mathlib.Data.List.Nodup
import Mathlib.Data.List.Pairwise
import QueryNames.Proofs.Marker

/-!
# The words that operators are spelled with

Facts about the tables of words, each checked over the whole table: no two operators share a
spelling, every spelling consists of humps that begin with a capital letter, and neither a marker
nor a word that ends a criterion can begin inside a spelling. So what stands behind the property of
a criterion never ends it.
-/

namespace QueryNames

namespace Operator

open Text

/-- The spellings of all operators. -/
def keywords : List Text := all.flatMap spellings

private theorem checked_keywords :
    keywords.Nodup ∧ ∀ k ∈ keywords, k.all isNameChar = true ∧
      Keyword.count Word.introducer k = 0 ∧
      (∀ u ∈ [] :: keywords, u <+: k → Opens (k.drop u.length)) ∧
      ∀ m ∈ CaseMarker.all, ¬m.word <:+: k ∧
        ∀ i ∈ List.range m.word.length, i ≠ 0 → ¬m.word.drop i <+: k := by
  decide +kernel

/-- A word spells at most one operator. -/
theorem eq_of_mem_spellings {o o' : Operator} {k : Text} (h : k ∈ o.spellings)
    (h' : k ∈ o'.spellings) : o = o' := by
  by_contra hne
  have hdisjoint := (List.nodup_flatMap.mp checked_keywords.1).2
  have hsymm : Std.Symm (Function.onFun List.Disjoint spellings) := by
    constructor
    intro a b hd
    exact List.disjoint_symm hd
  exact hdisjoint.forall (mem_all o) (mem_all o') hne h h'

/-- A word is in the table exactly when it spells some operator. -/
theorem mem_keywords_iff {k : Text} : k ∈ keywords ↔ ∃ o : Operator, k ∈ o.spellings := by
  rw [keywords, List.mem_flatMap]
  constructor
  · rintro ⟨o, -, hk⟩
    exact ⟨o, hk⟩
  · rintro ⟨o, hk⟩
    exact ⟨o, mem_all o, hk⟩

/-- Spellings consist of name characters. -/
theorem all_isNameChar_of_mem_keywords {k : Text} (h : k ∈ keywords) :
    k.all isNameChar = true :=
  (checked_keywords.2 k h).1

/-- What completes one spelling to another opens. -/
theorem opens_of_append_mem_keywords {u v : Text} (hu : u = [] ∨ u ∈ keywords)
    (huv : u ++ v ∈ keywords) : Opens v := by
  have hm : u ∈ [] :: keywords := List.mem_cons.mpr hu
  have := (checked_keywords.2 (u ++ v) huv).2.2.1 u hm (List.prefix_append u v)
  rwa [List.drop_left] at this

/-- The word `By` has no place in a spelling. -/
theorem count_introducer_of_mem_keywords {k : Text} (h : k ∈ keywords) :
    Keyword.count Word.introducer k = 0 :=
  (checked_keywords.2 k h).2.1

/-- No marker stands in a spelling. -/
theorem lacksMarkers_of_mem_keywords {k : Text} (h : k ∈ keywords) : LacksMarkers k :=
  fun m ↦ ((checked_keywords.2 k h).2.2.2 m (CaseMarker.mem_all m)).1

/-- No marker begins in front of a spelling and ends in it. -/
theorem not_prefix_of_mem_keywords {k x y : Text} (m : CaseMarker) (h : k ∈ keywords)
    (hm : m.word = x ++ y) (hx : x ≠ []) (hy : y ≠ []) : ¬y <+: k := by
  have key := ((checked_keywords.2 k h).2.2.2 m (CaseMarker.mem_all m)).2
  have hi : x.length ∈ List.range m.word.length := by
    rw [List.mem_range, hm, List.length_append]
    have := List.length_pos_iff.mpr hy
    omega
  have := key x.length hi (by simpa using hx)
  rwa [hm, List.drop_left] at this

end Operator

namespace Text

/-- A marker does not arise where a spelling is put behind a text without markers. -/
theorem LacksMarkers.append_keyword {t k : Text} (ht : LacksMarkers t)
    (hk : k ∈ Operator.keywords) : LacksMarkers (t ++ k) := by
  intro m hm
  induction t with
  | nil => exact Operator.lacksMarkers_of_mem_keywords hk m hm
  | cons c t ih =>
    rw [List.cons_append, List.infix_cons_iff, ← List.cons_append] at hm
    rcases hm with hp | hi
    · rcases prefix_append_cases hp with hp | ⟨y, hy, hmy, hyk⟩
      · exact ht m hp.isInfix
      · exact Operator.not_prefix_of_mem_keywords m hk hmy (List.cons_ne_nil c t) hy hyk
    · exact ih (ht.of_infix (List.suffix_cons c t).isInfix) hi

end Text

namespace Spelling

/-- The keyword of a spelling is in the table. -/
theorem keyword_mem_keywords (s : Spelling) : s.keyword ∈ Operator.keywords :=
  Operator.mem_keywords_iff.mpr ⟨s.operator, s.keyword_mem⟩

/-- A spelling is determined by its keyword. -/
theorem eq_of_keyword_eq {s s' : Spelling} (h : s.keyword = s'.keyword) : s = s' := by
  obtain ⟨o, k, hk⟩ := s
  obtain ⟨o', k', hk'⟩ := s'
  obtain rfl : k = k' := h
  obtain rfl := Operator.eq_of_mem_spellings hk hk'
  rfl

private theorem isSome_isPrefixOf?_iff {k t : Text} : (k.isPrefixOf? t).isSome ↔ k <+: t := by
  rw [Option.isSome_iff_exists]
  constructor
  · rintro ⟨r, hr⟩
    exact ⟨r, (Text.isPrefixOf?_eq_some_iff.mp hr).symm⟩
  · rintro ⟨r, hr⟩
    exact ⟨r, Text.isPrefixOf?_eq_some_iff.mpr hr.symm⟩

/-- The spelling that is read at the head of a text is the one with the longest keyword there. -/
theorem read?_eq_some_iff {t behind : Text} {s : Spelling} :
    read? t = some (s, behind) ↔
      t = s.keyword ++ behind ∧
        ∀ s' : Spelling, s'.keyword <+: t → s'.keyword.length ≤ s.keyword.length := by
  rw [read?, Text.longest?_eq_some_iff]
  · simp only [mem_all, true_and, true_implies, isSome_isPrefixOf?_iff,
      Text.isPrefixOf?_eq_some_iff]
  · intro a _ c _ ha hc hlen
    rw [isSome_isPrefixOf?_iff] at ha hc
    exact eq_of_keyword_eq ((List.prefix_of_prefix_length_le ha hc hlen.le).eq_of_length hlen)

/-- No operator is read exactly where no keyword stands. -/
theorem read?_eq_none_iff {t : Text} : read? t = none ↔ ∀ s : Spelling, ¬s.keyword <+: t := by
  simp only [read?, Text.longest?_eq_none_iff, mem_all, true_implies,
    ← isSome_isPrefixOf?_iff, Option.not_isSome_iff_eq_none]

/-- A spelling is read back from its keyword. -/
@[simp] theorem read?_keyword (s : Spelling) : read? s.keyword = some (s, []) :=
  read?_eq_some_iff.mpr ⟨(List.append_nil _).symm, fun _ h ↦ h.length_le⟩

/-- No operator is read at the end of a text. -/
@[simp] theorem read?_nil : read? [] = none :=
  read?_eq_none_iff.mpr fun s h ↦ s.keyword_ne_nil (List.prefix_nil.mp h)

end Spelling

namespace Terminator

open Text

/-- Whether a text begins with two letters that a word that ends a criterion begins with, or with
the first of them alone. -/
def mayBegin : Text → Bool
  | [] => false
  | [c] => c == 'A' || c == 'O'
  | c :: d :: _ => c == 'A' && (d == 'n' || d == 'l') || c == 'O' && d == 'r'

/-- Whether no word that ends a criterion can begin anywhere in a text. -/
def isCalm : Text → Bool
  | [] => true
  | c :: t => !mayBegin (c :: t) && isCalm t

private theorem word_eq_cons (w : Terminator) :
    ∃ c d t, w.word = c :: d :: t ∧ mayBegin [c] = true ∧ mayBegin [c, d] = true := by
  rcases w with (_ | _) | (_ | _) | _
  · exact ⟨'A', 'n', _, rfl, rfl, rfl⟩
  · exact ⟨'O', 'r', _, rfl, rfl, rfl⟩
  · exact ⟨'A', 'l', _, rfl, rfl, rfl⟩
  · exact ⟨'A', 'l', _, rfl, rfl, rfl⟩
  · exact ⟨'O', 'r', _, rfl, rfl, rfl⟩

/-- The end of a calm text is calm. -/
theorem isCalm_of_append {x y : Text} (h : isCalm (x ++ y) = true) : isCalm y = true := by
  induction x with
  | nil => exact h
  | cons c x ih =>
    rw [List.cons_append, isCalm, Bool.and_eq_true] at h
    exact ih h.2

/-- Calm texts in a row are calm. -/
theorem isCalm_append {x y : Text} (hx : isCalm x = true) (hy : isCalm y = true) :
    isCalm (x ++ y) = true := by
  induction x with
  | nil => exact hy
  | cons c x ih =>
    rw [isCalm, Bool.and_eq_true, Bool.not_eq_true'] at hx
    rw [List.cons_append, isCalm, Bool.and_eq_true, Bool.not_eq_true']
    refine ⟨?_, ih hx.2⟩
    cases x with
    | cons d x => exact hx.1
    | nil =>
      have hc := hx.1
      simp only [mayBegin, Bool.or_eq_false_iff] at hc
      cases y with
      | nil => exact hx.1
      | cons d y =>
        change mayBegin (c :: d :: y) = false
        simp [mayBegin, hc.1, hc.2]

/-- Spellings of operators are calm. -/
theorem isCalm_of_mem_keywords {k : Text} (h : k ∈ Operator.keywords) : isCalm k = true := by
  have key : ∀ k ∈ Operator.keywords, isCalm k = true := by decide +kernel
  exact key k h

/-- Markers are calm. -/
theorem isCalm_marker (m : CaseMarker) : isCalm m.word = true := by cases m <;> decide

/-- No word that ends a criterion is read at a place of a calm text, whatever follows the text. -/
theorem readLongest?_eq_none_of_isCalm {x : Text} (hx : isCalm x = true) (hne : x ≠ []) (y : Text) :
    Keyword.readLongest? word all (x ++ y) = none := by
  refine Keyword.readLongest?_eq_none_iff.mpr fun w _ ↦ ?_
  cases hr : Keyword.read? w.word (x ++ y) with
  | none => rfl
  | some behind =>
    have ht := (Keyword.read?_eq_some_iff.mp hr).1
    obtain ⟨c, d, t, hw, h1, h2⟩ := word_eq_cons w
    rw [hw] at ht
    cases x with
    | nil => exact absurd rfl hne
    | cons a x =>
      rw [isCalm, Bool.and_eq_true, Bool.not_eq_true'] at hx
      simp only [List.cons_append, List.cons.injEq] at ht
      obtain ⟨rfl, ht⟩ := ht
      cases x with
      | nil =>
        rw [hx.1] at h1
        cases h1
      | cons b x =>
        simp only [List.cons_append, List.cons.injEq] at ht
        obtain ⟨rfl, -⟩ := ht
        have h3 : mayBegin (a :: b :: x) = mayBegin [a, b] := rfl
        rw [← h3, hx.1] at h2
        cases h2

/-- The words that end a criterion end in a letter. -/
theorem endsInLetter_word (w : Terminator) : endsInLetter w.word = true := by
  rcases w with (_ | _) | (_ | _) | _ <;> decide

/-- In front of a text that opens, each word that ends a criterion is read as itself. -/
theorem readLongest?_append (w : Terminator) {behind : Text} (hb : Opens behind) :
    Keyword.readLongest? word all (w.word ++ behind) = some (w, behind) := by
  refine longest?_eq_some_of_unique (mem_all w)
    (Keyword.read?_append (endsInLetter_word w) hb) fun w' hw' d hd ↦ ?_
  obtain ⟨ht, hd⟩ := (Keyword.read?_eq_some_iff_opens (endsInLetter_word w')).mp hd
  -- one of the two words begins the other, and `Or` does not begin with the hump of `OrderBy`
  have key : ∀ a ∈ all, ∀ b ∈ all, a.word <+: b.word → headWord a.word = headWord b.word →
      a = b := by
    decide
  have hhead : headWord w'.word = headWord w.word := by
    rw [← headWord_append (word_ne_nil w') hd, ← ht, headWord_append (word_ne_nil w) hb]
  have hpre : w'.word <+: w.word ++ behind := ⟨d, ht.symm⟩
  rcases List.prefix_or_prefix_of_prefix hpre (List.prefix_append w.word behind) with h | h
  · exact key w' hw' w (mem_all w) h hhead
  · exact (key w (mem_all w) w' hw' h hhead.symm).symm

end Terminator

end QueryNames
