import Mathlib.Data.List.Infix
import QueryNames.Criterion
import QueryNames.Proofs.Search

/-!
# Cutting out a marker

The two markers begin with the same letter, which neither of them holds a second time. So no marker
can begin before another one and end inside it, and a marker that is put into a text without markers
is the one that is cut out of it again.
-/

namespace QueryNames

namespace Text

/-- Nowhere in a text stands a marker that ignores letter case. -/
def LacksMarkers (t : Text) : Prop := ∀ m : CaseMarker, ¬m.word <:+: t

/-- A part of a text without markers has none either. -/
theorem LacksMarkers.of_infix {s t : Text} (ht : LacksMarkers t) (hs : s <:+: t) :
    LacksMarkers s := fun m hm ↦ ht m (hm.trans hs)

end Text

namespace CaseMarker

open Text

/-- Every marker is in the list of all. -/
theorem mem_all (m : CaseMarker) : m ∈ all := by cases m <;> decide

/-- The letter at the head of the markers does not come again in them. -/
theorem notMem_tail_word (m : CaseMarker) : 'I' ∉ m.word.tail := by cases m <;> decide

/-- Both markers have the same letter at their head. -/
theorem word_eq_cons (m : CaseMarker) : m.word = 'I' :: m.word.tail := by cases m <;> rfl

private theorem eq_of_word_prefix {m n : CaseMarker} {t : Text} (hm : m.word <+: t)
    (hn : n.word <+: t) : m = n := by
  have key : ∀ a ∈ all, ∀ b ∈ all, a.word <+: b.word → a = b := by decide
  rcases List.prefix_or_prefix_of_prefix hm hn with h | h
  · exact key m (mem_all m) n (mem_all n) h
  · exact (key n (mem_all n) m (mem_all m) h).symm

/-- A marker is read exactly where it stands. -/
theorem read?_eq_some_iff {t behind : Text} {m : CaseMarker} :
    read? t = some (m, behind) ↔ t = m.word ++ behind := by
  constructor
  · intro h
    exact isPrefixOf?_eq_some_iff.mp (of_longest? h).2
  · rintro rfl
    refine longest?_eq_some_of_unique (mem_all m) (isPrefixOf?_append _ _) fun n _ d hd ↦ ?_
    have hn := isPrefixOf?_eq_some_iff.mp hd
    exact eq_of_word_prefix ⟨d, hn.symm⟩ (List.prefix_append _ _)

/-- No marker is read exactly where none stands. -/
theorem read?_eq_none_iff {t : Text} : read? t = none ↔ ∀ m : CaseMarker, ¬m.word <+: t := by
  rw [read?, longest?_eq_none_iff]
  constructor
  · rintro h m ⟨r, rfl⟩
    have := h m (mem_all m)
    rw [isPrefixOf?_append] at this
    cases this
  · intro h m _
    cases hr : m.word.isPrefixOf? t with
    | none => rfl
    | some r => exact absurd ⟨r, (isPrefixOf?_eq_some_iff.mp hr).symm⟩ (h m)

/-- Nothing is cut out of a text without markers. -/
theorem cut_of_lacksMarkers {t : Text} (h : LacksMarkers t) : cut t = (none, t) := by
  induction t with
  | nil => rfl
  | cons c t ih =>
    have hr : read? (c :: t) = none :=
      read?_eq_none_iff.mpr fun m hm ↦ h m hm.isInfix
    rw [cut, hr]
    simp only [ih (h.of_infix (List.suffix_cons c t).isInfix)]

/-- A text out of which nothing is cut has no markers. -/
theorem lacksMarkers_of_cut {t : Text} (h : (cut t).1 = none) : LacksMarkers t := by
  induction t with
  | nil =>
    intro m hm
    rw [List.infix_nil, word_eq_cons] at hm
    cases hm
  | cons c t ih =>
    rw [cut] at h
    cases hr : read? (c :: t) with
    | some r =>
      rw [hr] at h
      cases h
    | none =>
      rw [hr] at h
      intro m hm
      rcases List.infix_cons_iff.mp hm with hp | hi
      · exact read?_eq_none_iff.mp hr m hp
      · exact ih h m hi

/-- The marker that is cut out of a text is the first one in it. -/
theorem exists_eq_of_cut {t rest : Text} {m : CaseMarker} (h : cut t = (some m, rest)) :
    ∃ before behind, t = before ++ (m.word ++ behind) ∧ rest = before ++ behind ∧
      LacksMarkers before := by
  fun_induction cut t generalizing rest with
  | case1 => cases (Prod.mk.inj h).1
  | case2 c t m' behind hr =>
    obtain ⟨hm, rfl⟩ := Prod.mk.inj h
    obtain rfl := Option.some.inj hm
    refine ⟨[], behind, read?_eq_some_iff.mp hr, rfl, fun n hn ↦ ?_⟩
    rw [List.infix_nil, word_eq_cons] at hn
    cases hn
  | case3 c t hr ih =>
    obtain ⟨hm, rfl⟩ := Prod.mk.inj h
    obtain ⟨before, behind, ht, hrest, hlacks⟩ := ih (Prod.ext hm rfl)
    refine ⟨c :: before, behind, by rw [ht, List.cons_append], congrArg (c :: ·) hrest,
      fun n hn ↦ ?_⟩
    rcases List.infix_cons_iff.mp hn with hpre | hin
    · refine read?_eq_none_iff.mp hr n (hpre.trans ?_)
      rw [ht, List.prefix_cons_inj]
      exact List.prefix_append before _
    · exact hlacks n hin

instance (t : Text) : Decidable (LacksMarkers t) :=
  decidable_of_iff ((cut t).1 = none)
    ⟨lacksMarkers_of_cut, fun h ↦ by rw [cut_of_lacksMarkers h]⟩

/-- No marker begins in a text without markers and ends in a marker behind it. -/
theorem read?_eq_none_of_lacksMarkers {a b : Text} (m : CaseMarker) (ha : LacksMarkers a)
    (hne : a ≠ []) : read? (a ++ (m.word ++ b)) = none := by
  refine read?_eq_none_iff.mpr fun n hn ↦ ?_
  rcases prefix_append_cases hn with hp | ⟨y, hy, hny, hyb⟩
  · exact ha n hp.isInfix
  · obtain ⟨c, a, rfl⟩ := List.exists_cons_of_ne_nil hne
    obtain ⟨d, y, rfl⟩ := List.exists_cons_of_ne_nil hy
    have hd : d = 'I' := by
      rw [word_eq_cons m, List.cons_append] at hyb
      exact (List.cons_prefix_cons.mp hyb).1
    apply notMem_tail_word n
    rw [hny, List.cons_append, List.tail_cons, hd]
    exact List.mem_append_right a List.mem_cons_self

/-- A marker behind a text without markers is cut out, whatever follows. -/
theorem cut_append {a : Text} (m : CaseMarker) (b : Text) (ha : LacksMarkers a) :
    cut (a ++ (m.word ++ b)) = (some m, a ++ b) := by
  induction a with
  | nil =>
    have hr : read? (m.word ++ b) = some (m, b) := read?_eq_some_iff.mpr rfl
    rw [List.nil_append, List.nil_append]
    rw [word_eq_cons, List.cons_append] at hr ⊢
    rw [cut, hr]
  | cons c a ih =>
    have hr := read?_eq_none_of_lacksMarkers (b := b) m ha (List.cons_ne_nil c a)
    rw [List.cons_append] at hr ⊢
    rw [cut, hr]
    simp only [ih (ha.of_infix (List.suffix_cons c a).isInfix), List.cons_append]

end CaseMarker

end QueryNames
