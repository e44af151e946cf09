import QueryNames.Proofs.PlainSchema

/-!
# Criteria that break off

Criteria that are cut short may be malformed, because a word that is cut short can become another
one: `Order` without its last letters is `Or`. Where this can happen is shown here. Between the
words of the criteria nothing goes wrong, and neither does anything behind the property of a
criterion, so it is enough to look at the identifiers by themselves, and at the letters of `OrderBy`
that stand behind an order clause.
-/

namespace QueryNames

open Text

namespace Keyword

variable {α : Type} {word : α → Text} {table : List α} {k t u x before behind : Text} {a : α}

/-- A keyword that is newly read in a text that breaks off stands at its end. -/
theorem behind_eq_nil_of_splitAtFirst? (h : splitAtFirst? word table t = none) (hx : x <+: t)
    (hsplit : splitAtFirst? word table x = some (before, a, behind)) : behind = [] := by
  by_contra hne
  obtain ⟨y, rfl⟩ := hx
  obtain ⟨ha, hread⟩ := of_longest? (readLongest?_of_splitAtFirst? hsplit)
  obtain ⟨hword, hseam⟩ := read?_eq_some_iff.mp hread
  have hx : x = before ++ (word a ++ behind) := by
    rw [eq_of_splitAtFirst? hsplit, List.append_assoc]
  -- with something behind it the keyword is read in the longer text as well
  have hread' : read? (word a) (word a ++ behind ++ y) = some (behind ++ y) := by
    refine read?_eq_some_iff.mpr ⟨List.append_assoc _ _ _, ?_⟩
    rwa [isSeam_congr _ (List.head?_append_of_ne_nil behind hne)]
  have hne' : word a ++ behind ++ y ≠ [] :=
    List.append_ne_nil_of_left_ne_nil (List.append_ne_nil_of_right_ne_nil _ hne) y
  have hnone := splitAtFirst?_eq_none_iff.mp h before _ (by rw [hx, List.append_assoc]) hne'
  rw [readLongest?_eq_none_iff.mp hnone a ha] at hread'
  cases hread'

private theorem not_isInfix_append {v : Text} (hbars : Bars k k) (hv : ¬k <:+: v)
    (hx : x <:+ k.tail) : ¬k <:+: x ++ v := by
  induction x with
  | nil => exact hv
  | cons c x ih =>
    have hmem : c :: x ∈ k.tail.tails := (List.mem_tails _ _).mpr hx
    have hbar := hbars _ hmem (List.cons_ne_nil c x)
    intro hin
    rw [List.cons_append, List.infix_cons_iff] at hin
    rcases hin with hpre | hin
    · rcases prefix_append_cases (s := c :: x) hpre with hshort | ⟨z, -, hz, -⟩
      · rw [hshort.eq_of_length_le (hx.length_le.trans (List.tail_sublist k).length_le)] at hbar
        exact hbar List.prefix_rfl
      · exact hbar ⟨z, hz.symm⟩
    · exact ih ((List.suffix_cons c x).trans hx) hin

private theorem count_le_one (hbars : Bars k k)
    (h : ∀ b v, b <:+ t → read? k b = some v → ¬k <:+: v) : count k t ≤ 1 := by
  induction t with
  | nil => exact Nat.zero_le 1
  | cons c t ih =>
    have hrest := ih fun b v hb ↦ h b v (hb.trans (List.suffix_cons c t))
    rw [count]
    cases hread : read? k (c :: t) with
    | none => simpa using hrest
    | some v =>
      have hlacks := h (c :: t) v List.suffix_rfl hread
      have ht : c :: t = k ++ v := (read?_eq_some_iff.mp hread).1
      -- the keyword cannot begin inside itself, so it has no place behind its head
      have hzero : count k t = 0 := by
        cases k with
        | nil => exact absurd List.nil_infix hlacks
        | cons d k =>
          rw [List.cons_append, List.cons.injEq] at ht
          rw [ht.2]
          exact count_eq_zero_of_lacks (not_isInfix_append hbars hlacks List.suffix_rfl)
      simp [hzero]

private theorem one_lt_count_append (hk : endsInLetter k = true) (hne : k ≠ []) (hopen : Opens k)
    (hbars : Bars k k) (hx : Opens x) : 1 < count k (k ++ x ++ k) := by
  have hpos : ∀ u v, u ≠ [] → read? k u = some v → count k u ≠ 0 := by
    intro u v hu hread hzero
    rw [count_eq_zero_iff.mp hzero [] u rfl hu] at hread
    cases hread
  have hfirst := hpos _ _ (List.append_ne_nil_of_left_ne_nil hne x) (read?_append hk hx)
  have hlast := hpos k [] hne (read?_self k)
  rw [count_append_of_bars hk hopen hbars]
  omega

/-- A text has at most one place of a keyword wherever it breaks off exactly when the letters of the
keyword do not stand behind one of its places. -/
theorem forall_prefix_count_le_one_iff (hk : endsInLetter k = true) (hne : k ≠ []) (hopen : Opens k)
    (hbars : Bars k k) :
    (∀ u, u <+: t → count k u ≤ 1) ↔ ∀ b v, b <:+ t → read? k b = some v → ¬k <:+: v := by
  constructor
  · rintro hall b v ⟨a, rfl⟩ hread ⟨x, y, hv⟩
    obtain ⟨rfl, hopens⟩ := (read?_eq_some_iff_opens hk).mp hread
    have hcut : a ++ (k ++ x ++ k) <+: a ++ (k ++ v) := by
      rw [← hv]
      exact ⟨y, by simp only [List.append_assoc]⟩
    have hx : Opens x := hopens.of_isPrefix ⟨k ++ y, by rw [← hv, List.append_assoc]⟩
    have htwo := one_lt_count_append hk hne hopen hbars hx
    have hdrop := count_drop_le k (a ++ (k ++ x ++ k)) a.length
    rw [List.drop_left] at hdrop
    have := hall _ hcut
    omega
  · rintro hlacks u ⟨y, rfl⟩
    refine count_le_one hbars fun b v hb hread hin ↦ ?_
    obtain ⟨a, rfl⟩ := hb
    obtain ⟨rfl, hopens⟩ := (read?_eq_some_iff_opens hk).mp hread
    -- what follows the place is not empty, so the keyword is read there in the longer text too
    have hopens' : Opens (v ++ y) := by
      refine hopens.append_of_nil fun hnil ↦ absurd ?_ hne
      rwa [hnil, List.infix_nil] at hin
    refine hlacks (k ++ v ++ y) (v ++ y) ⟨a, (List.append_assoc _ _ _).symm⟩ ?_
      (hin.trans (List.prefix_append v y).isInfix)
    rw [List.append_assoc]
    exact read?_append hk hopens'

end Keyword

namespace Predicate

namespace Chain

/-- No text of a chain is missing, except for the last one where nothing follows it. -/
structure IsFilled (m : Chain) : Prop where
  joined : ∀ x ∈ m.joined, x.1 ≠ []
  last : m.last = [] → m.tail = []

/-- Each conjunction has a criterion on both sides, unless it ends the text. -/
def HasSides (m : Chain) : Prop := m.IsFilled ∨ m.joined = []

variable {m : Chain} {f last tail : Text} {c : Conjunction} {joined : List (Text × Conjunction)}

instance (m : Chain) : Decidable m.IsFilled :=
  decidable_of_iff ((∀ x ∈ m.joined, x.1 ≠ []) ∧ (m.last = [] → m.tail = []))
    ⟨fun ⟨hj, hl⟩ ↦ ⟨hj, hl⟩, fun h ↦ ⟨h.joined, h.last⟩⟩

instance (m : Chain) : Decidable m.HasSides := inferInstanceAs (Decidable (_ ∨ _))

/-- A filled chain has a criterion on both sides of each conjunction. -/
theorem IsFilled.hasSides (h : m.IsFilled) : m.HasSides := Or.inl h

/-- A single text that is not empty is filled, whatever follows it. -/
theorem isFilled_nil_of_ne_nil (h : last ≠ []) : IsFilled ⟨[], last, tail⟩ :=
  ⟨List.forall_mem_nil _, fun he ↦ absurd he h⟩

/-- A chain is filled if its first text is not empty and the rest of it is filled. -/
theorem isFilled_cons_iff :
    IsFilled ⟨(f, c) :: joined, last, tail⟩ ↔ f ≠ [] ∧ IsFilled ⟨joined, last, tail⟩ := by
  constructor
  · rintro ⟨hj, hl⟩
    obtain ⟨hf, hj⟩ := List.forall_mem_cons.mp hj
    exact ⟨hf, hj, hl⟩
  · rintro ⟨hf, hj, hl⟩
    exact ⟨List.forall_mem_cons.mpr ⟨hf, hj⟩, hl⟩

/-- Behind a conjunction nothing of a chain may be missing. -/
theorem hasSides_cons_iff :
    HasSides ⟨(f, c) :: joined, last, tail⟩ ↔ f ≠ [] ∧ IsFilled ⟨joined, last, tail⟩ := by
  rw [HasSides, isFilled_cons_iff]
  exact or_iff_left (List.cons_ne_nil _ _)

/-- No conjunction is reported exactly where each of them has a criterion on both sides. -/
theorem emptyBranch?_eq_none_iff : m.emptyBranch? = none ↔ m.HasSides := by
  obtain ⟨joined, last, tail⟩ := m
  rw [emptyBranch?]
  cases hfind : joined.find? (·.1 = []) with
  | some x =>
    have hx := List.find?_some hfind
    have hmem := List.mem_of_find?_eq_some hfind
    refine iff_of_false (Option.some_ne_none x.2) ?_
    rintro (h | h)
    · exact h.joined x hmem (of_decide_eq_true hx)
    · rw [show joined = [] from h] at hmem
      cases hmem
  | none =>
    have hj : ∀ x ∈ joined, x.1 ≠ [] := by
      intro x hx he
      have := List.find?_eq_none.mp hfind x hx
      exact this (decide_eq_true he)
    by_cases hl : last = [] ∧ tail ≠ []
    · simp only [if_pos hl, lastConjunction?, Option.map_eq_none_iff, List.getLast?_eq_none_iff]
      constructor
      · exact Or.inr
      · rintro (h | h)
        · exact absurd (h.last hl.1) hl.2
        · exact h
    · simp only [if_neg hl, true_iff]
      refine Or.inl ⟨hj, fun he ↦ ?_⟩
      by_contra ht
      exact hl ⟨he, ht⟩

end Chain

/-- Criteria can be read if there is one order clause at most and no conjunction lacks a side. -/
structure IsSound (s : Schema) (t : Text) : Prop where
  count_orderBy : Keyword.count Word.orderBy t ≤ 1
  hasSides : (chain s t).HasSides

instance (s : Schema) (t : Text) : Decidable (IsSound s t) :=
  decidable_of_iff (Keyword.count Word.orderBy t ≤ 1 ∧ (chain s t).HasSides)
    ⟨fun ⟨hc, hs⟩ ↦ ⟨hc, hs⟩, fun h ↦ ⟨h.count_orderBy, h.hasSides⟩⟩

/-- The identifier with which the text of a criterion begins; the whole text if none does. -/
def headText (s : Schema) (f : Text) : Text := ((s.headProperty? f).map (·.1.identifier)).getD f

/-- Criteria may break off anywhere. Cut into criteria by itself, no beginning of the identifier at
the head of the first criterion leaves a side of a conjunction empty, and no beginning of a later
one lacks a criterion that something follows. Where `OrderBy` is read, its letters do not stand
again behind it. -/
structure CanBreakOff (s : Schema) (t : Text) : Prop where
  first : ∀ f ∈ (chain s t).fragments.head?, ∀ x, x <+: headText s f → (chain s x).HasSides
  others : ∀ f ∈ (chain s t).fragments.tail, ∀ x, x <+: headText s f → (chain s x).IsFilled
  orderBy : ∀ b v, b <:+ t → Keyword.read? Word.orderBy b = some v → ¬Word.orderBy <:+: v

instance (s : Schema) (t : Text) : Decidable (CanBreakOff s t) :=
  decidable_of_iff
    ((∀ f ∈ (chain s t).fragments.head?, ∀ x ∈ (headText s f).inits, (chain s x).HasSides) ∧
      (∀ f ∈ (chain s t).fragments.tail, ∀ x ∈ (headText s f).inits, (chain s x).IsFilled) ∧
      ∀ b ∈ t.tails, ∀ v ∈ Keyword.read? Word.orderBy b, ¬Word.orderBy <:+: v) (by
    simp only [List.mem_inits, List.mem_tails]
    exact ⟨fun ⟨hf, ho, hc⟩ ↦ ⟨hf, ho, fun b v hb hv ↦ hc b hb v hv⟩,
      fun h ↦ ⟨h.first, h.others, fun b hb v hv ↦ h.orderBy b v hb hv⟩⟩)

variable {s : Schema} {t u f x last tail behind : Text} {w : Terminator}
  {joined : List (Text × Conjunction)}

/-- Where nothing stands, criteria can be read. -/
theorem isSound_nil (s : Schema) : IsSound s [] := by
  refine ⟨Nat.zero_le 1, ?_⟩
  rw [chain_nil]
  exact Or.inr rfl

/-- The criteria are read unless there is a second order clause or a conjunction lacks one. -/
theorem exists_read_iff : (∃ m, read s t = .ok m) ↔
    Keyword.count Word.orderBy t ≤ 1 ∧ (chain s t).emptyBranch? = none := by
  by_cases hcount : 1 < Keyword.count Word.orderBy t
  · refine iff_of_false ?_ fun h ↦ absurd h.1 (Nat.not_le.mpr hcount)
    simp [read, hcount]
  · rw [and_iff_right (Nat.le_of_not_lt hcount)]
    cases hempty : (chain s t).emptyBranch? with
    | none => simp [read, hcount, hempty]
    | some c => simp [read, hcount, hempty]

/-- What reading the criteria gives is told by their chain. -/
theorem eq_passage_of_read {p : Passage Predicate} (h : read s t = .ok p) :
    (chain s t).emptyBranch? = none ∧
      p = ⟨ofChain s (chain s t),
        (chain s t).fragments.filterMap (defect? s) ++ endDefects (chain s t),
        next s (chain s t)⟩ := by
  obtain ⟨hcount, hempty⟩ := exists_read_iff.mp ⟨p, h⟩
  simp only [read, if_neg (Nat.not_lt.mpr hcount), hempty, Except.ok.injEq] at h
  exact ⟨hempty, h.symm⟩

/-- The criteria that are read are those that can be. -/
theorem exists_read_iff_isSound : (∃ m, read s t = .ok m) ↔ IsSound s t := by
  rw [exists_read_iff, Chain.emptyBranch?_eq_none_iff]
  exact ⟨fun ⟨hc, hs⟩ ↦ ⟨hc, hs⟩, fun h ↦ ⟨h.count_orderBy, h.hasSides⟩⟩

private theorem isFilled_of_splitCriterion_end (h : splitCriterion s x = (f, some (w, [])))
    (hf : f ≠ []) : (chain s x).IsFilled := by
  by_cases hjoin : ∃ k, w = .join k
  · obtain ⟨k, rfl⟩ := hjoin
    rw [chain_of_join h, chain_nil]
    exact Chain.isFilled_cons_iff.mpr ⟨hf, List.forall_mem_nil _, fun _ ↦ rfl⟩
  · rw [chain_of_word h fun k hk ↦ hjoin ⟨k, hk⟩]
    exact Chain.isFilled_nil_of_ne_nil hf

private theorem prefix_headText_or_isFilled (h : splitCriterion s f = (f, none)) (hx : x <+: f) :
    x <+: headText s f ∨ (chain s x).IsFilled := by
  cases hh : s.headProperty? f with
  | none =>
    left
    rwa [headText, hh]
  | some m =>
    obtain ⟨p, r⟩ := m
    obtain ⟨hp, rfl, hmax⟩ := Schema.headProperty?_eq_some_iff.mp hh
    rw [headText, hh]
    rcases prefix_append_cases hx with hin | ⟨z, -, rfl, hz⟩
    · exact Or.inl hin
    right
    have hne := (s.named p hp).identifier_ne_nil
    -- the property stays at the head, so that a word can end the criterion only where it breaks off
    have hhead : s.headProperty? (p.identifier ++ z) = some (p, z) :=
      Schema.headProperty?_eq_some_iff.mpr ⟨hp, rfl, fun q hq hpre ↦ hmax q hq (hpre.trans hx)⟩
    rw [splitCriterion_eq_self_iff, Schema.behindHead, hh] at h
    cases hz' : Keyword.splitAtFirst? Terminator.word Terminator.all z with
    | none =>
      have hsplit : splitCriterion s (p.identifier ++ z) = (p.identifier ++ z, none) := by
        rw [splitCriterion_eq_self_iff, Schema.behindHead, hhead]
        exact hz'
      rw [chain_of_none hsplit]
      exact Chain.isFilled_nil_of_ne_nil (List.append_ne_nil_of_left_ne_nil hne z)
    | some m =>
      obtain ⟨before, w, b⟩ := m
      obtain rfl := Keyword.behind_eq_nil_of_splitAtFirst? h hz hz'
      have hsplit : splitCriterion s (p.identifier ++ z) =
          (p.identifier ++ before, some (w, [])) := by
        simp only [splitCriterion, hhead, hz']
      exact isFilled_of_splitCriterion_end hsplit (List.append_ne_nil_of_left_ne_nil hne before)

private theorem checked_beginnings :
    ∀ w ∈ Terminator.all, ∀ i ∈ List.range w.word.length,
      Keyword.splitAtFirst? Terminator.word Terminator.all (w.word.take i) = none ∨
        Keyword.splitAtFirst? Terminator.word Terminator.all (w.word.take i) =
          some ([], .join .or, []) := by
  decide

private theorem isFilled_chain_append (h : splitCriterion s t = (f, some (w, behind)))
    (hf : f ≠ []) {y : Text} (hy : y <+: w.word) (hne : y ≠ w.word) :
    (chain s (f ++ y)).IsFilled := by
  have ht : t = f ++ (w.word ++ behind) := by rw [eq_of_splitCriterion h, List.append_assoc]
  have hfits := (fits_of_splitCriterion h ht).of_isPrefix (hy.trans (List.prefix_append _ behind))
  have hlt : y.length < w.word.length :=
    Nat.lt_of_le_of_ne hy.length_le fun he ↦ hne (hy.eq_of_length he)
  have hread := checked_beginnings w (Terminator.mem_all w) y.length (List.mem_range.mpr hlt)
  rw [← List.prefix_iff_eq_take.mp hy] at hread
  have hsplit := splitCriterion_append (splitCriterion_self h) hfits
    (Terminator.isBorder_of_prefix_word hy)
  cases hread with
  | inl hnone =>
    rw [hnone] at hsplit
    rw [chain_of_none hsplit]
    exact Chain.isFilled_nil_of_ne_nil (List.append_ne_nil_of_left_ne_nil hf y)
  | inr hor =>
    -- of all these words only `OrderBy` has another one, `Or`, as its beginning
    simp only [hor, List.append_nil] at hsplit
    exact isFilled_of_splitCriterion_end hsplit hf

/-- The text of a criterion is split off in front of whatever is left of the text behind it. -/
theorem splitCriterion_of_isPrefix {v : Text} (h : splitCriterion s t = (f, some (w, behind)))
    (hv : v <+: behind) : splitCriterion s (f ++ (w.word ++ v)) = (f, some (w, v)) := by
  have ht : t = f ++ (w.word ++ behind) := by rw [eq_of_splitCriterion h, List.append_assoc]
  refine splitCriterion_append_word (splitCriterion_self h)
    ((opens_of_splitCriterion h).of_isPrefix hv) ?_
  exact (fits_of_splitCriterion h ht).of_isPrefix ((List.prefix_append_right_inj w.word).mpr hv)

private theorem prefix_cases (h : splitCriterion s t = (f, some (w, behind))) (hf : f ≠ [])
    (hu : u <+: t) :
    u <+: headText s f ∨ (chain s u).IsFilled ∨
      ∃ v, v <+: behind ∧ u = f ++ (w.word ++ v) ∧ splitCriterion s u = (f, some (w, v)) := by
  have ht : t = f ++ (w.word ++ behind) := by rw [eq_of_splitCriterion h, List.append_assoc]
  rw [ht] at hu
  rcases prefix_append_cases hu with hinside | ⟨y, -, rfl, hy⟩
  · exact (prefix_headText_or_isFilled (splitCriterion_self h) hinside).imp_right Or.inl
  · right
    by_cases hword : w.word <+: y
    · obtain ⟨v, rfl⟩ := hword
      have hv : v <+: behind := (List.prefix_append_right_inj w.word).mp hy
      exact Or.inr ⟨v, hv, rfl, splitCriterion_of_isPrefix h hv⟩
    · left
      rcases List.prefix_or_prefix_of_prefix hy (List.prefix_append w.word behind) with hpre | hpre
      · exact isFilled_chain_append h hf hpre fun he ↦ hword (he ▸ List.prefix_rfl)
      · exact absurd hpre hword

private theorem headText_isPrefix (s : Schema) (f : Text) : headText s f <+: f := by
  rw [headText]
  cases hh : s.headProperty? f with
  | none => exact List.prefix_rfl
  | some m => exact ⟨m.2, (Schema.eq_of_headProperty? hh).2.symm⟩

section Break

variable {P : Chain → Prop} (hfilled : ∀ m : Chain, m.IsFilled → P m)

include hfilled

private theorem forall_prefix_nil_iff (h : chain s t = ⟨[], last, tail⟩) (hl : last ≠ []) :
    (∀ u, u <+: t → P (chain s u)) ↔ ∀ x, x <+: headText s last → P (chain s x) := by
  constructor
  · intro hall x hx
    have ht : t = last ++ tail := by
      rw [← Chain.text_chain s t, h]
      rfl
    exact hall x ((hx.trans (headText_isPrefix s last)).trans (ht ▸ List.prefix_append last tail))
  · intro hlast u hu
    rcases chain_eq_nil_iff.mp h with ⟨hsplit, -⟩ | ⟨w, behind, hsplit, hw, -⟩
    · obtain rfl := eq_of_splitCriterion_none hsplit
      rcases prefix_headText_or_isFilled hsplit hu with hin | hmissing
      · exact hlast u hin
      · exact hfilled _ hmissing
    · rcases prefix_cases hsplit hl hu with hin | hmissing | ⟨v, -, -, hcut⟩
      · exact hlast u hin
      · exact hfilled _ hmissing
      · rw [chain_of_word hcut hw]
        exact hfilled _ (Chain.isFilled_nil_of_ne_nil hl)

private theorem forall_prefix_cons_iff
    (hcons : ∀ f c joined last tail, P ⟨(f, c) :: joined, last, tail⟩ ↔
      f ≠ [] ∧ Chain.IsFilled ⟨joined, last, tail⟩) {c : Conjunction}
    (h : splitCriterion s t = (f, some (.join c, behind))) (hf : f ≠ []) :
    (∀ u, u <+: t → P (chain s u)) ↔
      (∀ x, x <+: headText s f → P (chain s x)) ∧ ∀ v, v <+: behind → (chain s v).IsFilled := by
  have ht : t = f ++ ((Terminator.join c).word ++ behind) := by
    rw [eq_of_splitCriterion h, List.append_assoc]
  constructor
  · intro hall
    refine ⟨fun x hx ↦ hall x ((hx.trans (headText_isPrefix s f)).trans
      (ht ▸ List.prefix_append f _)), fun v hv ↦ ?_⟩
    have hcut := hall (f ++ ((Terminator.join c).word ++ v)) (ht ▸
      (List.prefix_append_right_inj f).mpr ((List.prefix_append_right_inj _).mpr hv))
    rw [chain_of_join (splitCriterion_of_isPrefix h hv)] at hcut
    exact ((hcons _ _ _ _ _).mp hcut).2
  · rintro ⟨hfirst, hbehind⟩ u hu
    rcases prefix_cases h hf hu with hin | hmissing | ⟨v, hv, -, hcut⟩
    · exact hfirst u hin
    · exact hfilled _ hmissing
    · rw [chain_of_join hcut]
      exact (hcons _ _ _ _ _).mpr ⟨hf, hbehind v hv⟩

end Break

private theorem forall_isFilled_iff (h : chain s t = ⟨joined, last, tail⟩)
    (hj : ∀ x ∈ joined, x.1 ≠ []) (hl : last ≠ []) :
    (∀ u, u <+: t → (chain s u).IsFilled) ↔
      ∀ f ∈ joined.map Prod.fst ++ [last], ∀ x, x <+: headText s f → (chain s x).IsFilled := by
  induction joined generalizing t with
  | nil =>
    rw [List.map_nil, List.nil_append, List.forall_mem_singleton]
    exact forall_prefix_nil_iff (fun _ hm ↦ hm) h hl
  | cons m joined ih =>
    obtain ⟨f, c⟩ := m
    obtain ⟨hf, hj⟩ := List.forall_mem_cons.mp hj
    obtain ⟨behind, hsplit, hrest⟩ := chain_eq_cons_iff.mp h
    rw [List.map_cons, List.cons_append, List.forall_mem_cons, ← ih hrest hj]
    exact forall_prefix_cons_iff (fun _ hm ↦ hm) (fun _ _ _ _ _ ↦ Chain.isFilled_cons_iff) hsplit hf

private theorem forall_hasSides_iff (hj : ∀ x ∈ (chain s t).joined, x.1 ≠ [])
    (hl : (chain s t).last ≠ []) :
    (∀ u, u <+: t → (chain s u).HasSides) ↔
      (∀ f ∈ (chain s t).fragments.head?, ∀ x, x <+: headText s f → (chain s x).HasSides) ∧
        ∀ f ∈ (chain s t).fragments.tail, ∀ x, x <+: headText s f → (chain s x).IsFilled := by
  have hfilled : ∀ m : Chain, m.IsFilled → m.HasSides := fun _ hm ↦ hm.hasSides
  cases h : chain s t with
  | mk joined last tail =>
  rw [h] at hj hl
  rw [Chain.fragments, if_neg hl]
  cases joined with
  | nil => simpa using forall_prefix_nil_iff hfilled h hl
  | cons m joined =>
    obtain ⟨f, c⟩ := m
    obtain ⟨hf, hj⟩ := List.forall_mem_cons.mp hj
    obtain ⟨behind, hsplit, hrest⟩ := chain_eq_cons_iff.mp h
    rw [forall_prefix_cons_iff hfilled (fun _ _ _ _ _ ↦ Chain.hasSides_cons_iff) hsplit hf,
      forall_isFilled_iff hrest hj hl]
    simp

/-- Criteria of which none is missing can be read wherever they break off exactly when they may
break off anywhere. -/
theorem forall_prefix_isSound_iff (hj : ∀ x ∈ (chain s t).joined, x.1 ≠ [])
    (hl : (chain s t).last ≠ []) : (∀ u, u <+: t → IsSound s u) ↔ CanBreakOff s t := by
  have hsides := forall_hasSides_iff hj hl
  have hcount := Keyword.forall_prefix_count_le_one_iff (k := Word.orderBy) (t := t) (by decide)
    (by decide) (by decide) (by decide)
  constructor
  · intro hall
    obtain ⟨hfirst, hothers⟩ := hsides.mp fun u hu ↦ (hall u hu).hasSides
    exact ⟨hfirst, hothers, hcount.mp fun u hu ↦ (hall u hu).count_orderBy⟩
  · rintro ⟨hfirst, hothers, horder⟩ u hu
    exact ⟨hcount.mpr horder u hu, hsides.mpr ⟨hfirst, hothers⟩ u hu⟩

/-! ### The beginning of `By` behind criteria -/

private theorem splitCriterion_append_letter {m : Option (Terminator × Text)}
    (h : splitCriterion s t = (f, m)) :
    splitCriterion s (t ++ ['B']) = (t ++ ['B'], none) ∨
      ∃ w b, m = some (w, b) ∧ splitCriterion s (t ++ ['B']) = (f, some (w, b ++ ['B'])) := by
  have hopen : Opens ['B'] := by decide
  by_cases hfits : s.Fits t ['B']
  · cases m with
    | none =>
      left
      obtain rfl := eq_of_splitCriterion_none h
      have hborder : Terminator.IsBorder ['B'] := by
        intro w
        rcases w with (_ | _) | (_ | _) | _ <;> decide
      have hnone : Keyword.splitAtFirst? Terminator.word Terminator.all ['B'] = none := by decide
      rw [splitCriterion_append h hfits hborder, hnone]
    | some m =>
      obtain ⟨w, b⟩ := m
      right
      have ht : t = f ++ (w.word ++ b) := by rw [eq_of_splitCriterion h, List.append_assoc]
      have htext : t ++ ['B'] = f ++ (w.word ++ (b ++ ['B'])) := by
        rw [ht]
        simp only [List.append_assoc]
      refine ⟨w, b, rfl, ?_⟩
      rw [htext]
      refine splitCriterion_append_word (splitCriterion_self h)
        ((opens_of_splitCriterion h).append hopen) fun p hp hpre ↦ ?_
      rw [← htext] at hpre
      have hin := List.prefix_of_prefix_length_le hpre (List.prefix_append t _) (hfits p hp hpre)
      exact fits_of_splitCriterion h ht p hp (ht ▸ hin)
  · -- an identifier that reaches beyond the text is all of it with the letter
    left
    simp only [Schema.Fits, not_forall, Nat.not_le] at hfits
    obtain ⟨p, hp, hpre, hlong⟩ := hfits
    have hbehind : s.behindHead (t ++ ['B']) = [] := by
      cases hh : s.headProperty? (t ++ ['B']) with
      | none => exact absurd hpre (Schema.headProperty?_eq_none_iff.mp hh p hp)
      | some m =>
        obtain ⟨-, htext, hmax⟩ := Schema.headProperty?_eq_some_iff.mp hh
        have hlen := congrArg List.length htext
        have := hmax p hp hpre
        rw [List.length_append, List.length_append, List.length_singleton] at hlen
        simp only [Schema.behindHead, hh]
        exact List.eq_nil_of_length_eq_zero (by omega)
    rw [splitCriterion_eq_self_iff, hbehind]
    rfl

private theorem append_letter_ne_nil (t : Text) : t ++ ['B'] ≠ [] :=
  List.append_ne_nil_of_right_ne_nil t (List.cons_ne_nil _ _)

private theorem chain_append_letter_nil (h : chain s t = ⟨[], last, tail⟩) :
    (chain s (t ++ ['B'])).joined = [] ∧
      ((last = [] → tail = []) → (chain s (t ++ ['B'])).IsFilled) := by
  have hwhole : splitCriterion s (t ++ ['B']) = (t ++ ['B'], none) →
      (chain s (t ++ ['B'])).joined = [] ∧ (chain s (t ++ ['B'])).IsFilled := by
    intro hsplit
    rw [chain_of_none hsplit]
    exact ⟨rfl, Chain.isFilled_nil_of_ne_nil (append_letter_ne_nil t)⟩
  rcases chain_eq_nil_iff.mp h with ⟨hsplit, -⟩ | ⟨w, b, hsplit, hw, htail⟩
  · rcases splitCriterion_append_letter hsplit with hnone | ⟨w, b, hm, -⟩
    · exact (hwhole hnone).imp_right fun hm _ ↦ hm
    · cases hm
  · rcases splitCriterion_append_letter hsplit with hnone | ⟨w', b', hm, hword⟩
    · exact (hwhole hnone).imp_right fun hm _ ↦ hm
    · obtain ⟨rfl, rfl⟩ := Prod.mk.inj (Option.some.inj hm)
      rw [chain_of_word hword hw]
      refine ⟨rfl, fun hlast ↦ Chain.isFilled_nil_of_ne_nil fun he ↦ ?_⟩
      rw [hlast he] at htail
      exact List.append_ne_nil_of_left_ne_nil (Terminator.word_ne_nil w) b htail.symm

private theorem chain_append_letter_cons {c : Conjunction}
    (h : chain s t = ⟨(f, c) :: joined, last, tail⟩) :
    (chain s (t ++ ['B'])).IsFilled ∨ ∃ b, chain s b = ⟨joined, last, tail⟩ ∧
      chain s (t ++ ['B']) =
        { chain s (b ++ ['B']) with joined := (f, c) :: (chain s (b ++ ['B'])).joined } := by
  obtain ⟨b, hsplit, hrest⟩ := chain_eq_cons_iff.mp h
  rcases splitCriterion_append_letter hsplit with hnone | ⟨w, b', hm, hword⟩
  · left
    rw [chain_of_none hnone]
    exact Chain.isFilled_nil_of_ne_nil (append_letter_ne_nil t)
  · obtain ⟨rfl, rfl⟩ := Prod.mk.inj (Option.some.inj hm)
    exact Or.inr ⟨b, hrest, chain_of_join hword⟩

private theorem isFilled_append_letter (h : chain s t = ⟨joined, last, tail⟩)
    (hm : Chain.IsFilled ⟨joined, last, tail⟩) : (chain s (t ++ ['B'])).IsFilled := by
  induction joined generalizing t with
  | nil => exact (chain_append_letter_nil h).2 hm.last
  | cons x joined ih =>
    obtain ⟨f, c⟩ := x
    obtain ⟨hf, hm⟩ := Chain.isFilled_cons_iff.mp hm
    rcases chain_append_letter_cons h with hfilled | ⟨b, hrest, hcons⟩
    · exact hfilled
    · rw [hcons]
      exact Chain.isFilled_cons_iff.mpr ⟨hf, ih hrest hm⟩

/-- Criteria that can be read can be read with the beginning of `By` behind them. -/
theorem IsSound.append_letter (h : IsSound s t) : IsSound s (t ++ ['B']) := by
  constructor
  · have hbars := Word.bars_orderBy (x := ['B']) (by decide) (by decide)
    rw [Keyword.count_append_of_bars (by decide) (by decide) hbars]
    exact h.count_orderBy
  · have hsides := h.hasSides
    cases hchain : chain s t with
    | mk joined last tail =>
    rw [hchain] at hsides
    cases joined with
    | nil => exact Or.inr (chain_append_letter_nil hchain).1
    | cons x joined =>
      obtain ⟨f, c⟩ := x
      obtain ⟨hf, hm⟩ := Chain.hasSides_cons_iff.mp hsides
      rcases chain_append_letter_cons hchain with hfilled | ⟨b, hrest, hcons⟩
      · exact hfilled.hasSides
      · rw [hcons]
        exact Chain.hasSides_cons_iff.mpr ⟨hf, isFilled_append_letter hrest hm⟩

end Predicate

end QueryNames
