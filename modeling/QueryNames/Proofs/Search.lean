import QueryNames.Proofs.HeadWord

/-!
# Searching a text made of words

What the longest match, the search for the first keyword and the count of a keyword give on a text
that is put together from pieces. A search passes over a piece in which no keyword can be read, and
the places of a capital word in two pieces are the places in each of them, as long as the second
piece opens.
-/

namespace QueryNames

namespace Text

variable {α β : Type}

/-- What stands at the head of two texts in a row ends in the first one or begins with all of it. -/
theorem prefix_append_cases {k s t : Text} (h : k <+: s ++ t) :
    k <+: s ∨ ∃ y, y ≠ [] ∧ k = s ++ y ∧ y <+: t := by
  rcases List.prefix_or_prefix_of_prefix h (List.prefix_append s t) with hp | ⟨y, rfl⟩
  · exact Or.inl hp
  · cases y with
    | nil =>
      rw [List.append_nil]
      exact Or.inl List.prefix_rfl
    | cons d y =>
      exact Or.inr ⟨d :: y, List.cons_ne_nil d y, rfl, (List.prefix_append_right_inj s).mp h⟩

/-- An entry that can be read and is longer than every other such entry is the longest. -/
theorem longest?_eq_some {size : α → Nat} {read : α → Option β} {table : List α} {a : α} {b : β}
    (ha : a ∈ table) (hr : read a = some b)
    (hmax : ∀ c ∈ table, ∀ d, read c = some d → c = a ∨ size c < size a) :
    longest? size read table = some (a, b) := by
  cases hl : longest? size read table with
  | none =>
    have := longest?_eq_none_iff.mp hl a ha
    rw [hr] at this
    cases this
  | some m =>
    obtain ⟨c, d⟩ := m
    obtain ⟨hc, hd⟩ := of_longest? hl
    have hle := size_le_of_longest? hl ha hr
    rcases hmax c hc d hd with rfl | hlt
    · rw [hr] at hd
      rw [Option.some.inj hd]
    · omega

/-- Where no two entries of one length can be read, the longest is the one that no other entry that
can be read is longer than. -/
theorem longest?_eq_some_iff {size : α → Nat} {read : α → Option β} {table : List α} {a : α} {b : β}
    (hinj : ∀ a ∈ table, ∀ c ∈ table, (read a).isSome → (read c).isSome → size a = size c → a = c) :
    longest? size read table = some (a, b) ↔
      a ∈ table ∧ read a = some b ∧ ∀ c ∈ table, (read c).isSome → size c ≤ size a := by
  constructor
  · intro h
    obtain ⟨ha, hr⟩ := of_longest? h
    refine ⟨ha, hr, fun c hc hs ↦ ?_⟩
    obtain ⟨d, hd⟩ := Option.isSome_iff_exists.mp hs
    exact size_le_of_longest? h hc hd
  · rintro ⟨ha, hr, hmax⟩
    refine longest?_eq_some ha hr fun c hc d hd ↦ ?_
    have hs := Option.isSome_of_eq_some hd
    rcases Nat.lt_or_eq_of_le (hmax c hc hs) with hlt | heq
    · exact Or.inr hlt
    · exact Or.inl (hinj c hc a ha hs (Option.isSome_of_eq_some hr) heq)

/-- The only entry that can be read is the longest. -/
theorem longest?_eq_some_of_unique {size : α → Nat} {read : α → Option β} {table : List α} {a : α}
    {b : β} (ha : a ∈ table) (hr : read a = some b)
    (huniq : ∀ c ∈ table, ∀ d, read c = some d → c = a) :
    longest? size read table = some (a, b) :=
  longest?_eq_some ha hr fun c hc d hd ↦ Or.inl (huniq c hc d hd)

end Text

namespace Keyword

open Text

variable {α : Type} {word : α → Text} {table : List α}

/-- No keyword of a table is read where none of them can be read. -/
theorem readLongest?_eq_none_iff {t : Text} :
    readLongest? word table t = none ↔ ∀ k ∈ table, read? (word k) t = none :=
  longest?_eq_none_iff

/-- A keyword is read in its own text. -/
theorem read?_self (k : Text) : read? k k = some [] :=
  read?_eq_some_iff.mpr ⟨(List.append_nil k).symm, isSeam_nil _⟩

/-- A text at whose head no keyword can be read is none of them. -/
theorem ne_of_readLongest?_eq_none {t : Text} {k : α} (h : readLongest? word table t = none)
    (hk : k ∈ table) : t ≠ word k := by
  rintro rfl
  have hnone := readLongest?_eq_none_iff.mp h k hk
  rw [read?_self] at hnone
  cases hnone

/-- Of a table with a single keyword that keyword is read. -/
theorem readLongest?_singleton (k t : Text) :
    readLongest? id [k] t = (read? k t).map (k, ·) := by
  cases h : read? k t with
  | none => exact longest?_eq_none_iff.mpr (by simpa using h)
  | some behind =>
    refine longest?_eq_some (List.mem_singleton.mpr rfl) h fun c hc _ _ ↦ Or.inl ?_
    exact List.mem_singleton.mp hc

/-- Where a keyword can be read, the search stops at once. -/
theorem splitAtFirst?_of_readLongest? {t behind : Text} {k : α} (hne : t ≠ [])
    (h : readLongest? word table t = some (k, behind)) :
    splitAtFirst? word table t = some ([], k, behind) := by
  cases t with
  | nil => exact absurd rfl hne
  | cons c t => rw [splitAtFirst?, h]

/-- At the place where a search ends the keyword is read. -/
theorem readLongest?_of_splitAtFirst? {t before behind : Text} {k : α}
    (h : splitAtFirst? word table t = some (before, k, behind)) :
    readLongest? word table (word k ++ behind) = some (k, behind) := by
  induction t generalizing before with
  | nil => cases h
  | cons c t ih =>
    rw [splitAtFirst?] at h
    split at h
    · next k' behind' hr =>
      have heq := Option.some.inj h
      rw [Prod.mk.injEq, Prod.mk.injEq] at heq
      rw [← heq.2.1, ← heq.2.2, ← eq_of_readLongest? hr]
      exact hr
    · obtain ⟨m, hm, heq⟩ := Option.map_eq_some_iff.mp h
      obtain ⟨before', k', behind'⟩ := m
      rw [Prod.mk.injEq, Prod.mk.injEq] at heq
      rw [heq.2.1, heq.2.2] at hm
      exact ih hm

/-- The search passes over a piece at whose places no keyword can be read. -/
theorem splitAtFirst?_append {x y : Text}
    (h : ∀ a b, x = a ++ b → b ≠ [] → readLongest? word table (b ++ y) = none) :
    splitAtFirst? word table (x ++ y) =
      (splitAtFirst? word table y).map fun r ↦ (x ++ r.1, r.2) := by
  induction x with
  | nil => simp
  | cons c x ih =>
    have hc : readLongest? word table (c :: (x ++ y)) = none :=
      h [] (c :: x) rfl (List.cons_ne_nil c x)
    have hx : ∀ a b, x = a ++ b → b ≠ [] → readLongest? word table (b ++ y) = none := by
      intro a b hab hb
      exact h (c :: a) b (by rw [hab, List.cons_append]) hb
    rw [List.cons_append, splitAtFirst?, hc]
    simp only [ih hx, Option.map_map]
    rfl

/-- A search finds nothing where the keyword has no place. -/
theorem splitAtFirst?_eq_none_of_count {k t : Text} (h : count k t = 0) :
    splitAtFirst? id [k] t = none := by
  induction t with
  | nil => rfl
  | cons c t ih =>
    rw [count] at h
    have hr : read? k (c :: t) = none := by
      cases hr : read? k (c :: t) with
      | none => rfl
      | some b =>
        rw [hr] at h
        simp at h
    rw [splitAtFirst?, readLongest?_singleton, hr, Option.map_none]
    simp only [ih (by omega), Option.map_none]

@[simp] theorem count_nil (k : Text) : count k [] = 0 := rfl

/-- The places of a capital word in two pieces, of which the second one opens, are those in each. -/
theorem count_append {k x y : Text} (hk : isCapitalWord k = true) (hy : Opens y) :
    count k (x ++ y) = count k x + count k y := by
  induction x with
  | nil => simp
  | cons c x ih =>
    have hr : (read? k (c :: (x ++ y))).isSome = (read? k (c :: x)).isSome := by
      rw [Bool.eq_iff_iff, isSome_read?_iff hk, isSome_read?_iff hk, ← List.cons_append,
        headWord_append (List.cons_ne_nil c x) hy]
    rw [List.cons_append, count, count, hr, ih]
    omega

/-- Fewer places are left behind the first characters of a text. -/
theorem count_drop_le (k t : Text) (n : Nat) : count k (t.drop n) ≤ count k t := by
  induction t generalizing n with
  | nil => simp
  | cons c t ih =>
    cases n with
    | zero => exact Nat.le_refl _
    | succ n =>
      rw [List.drop_succ_cons, count]
      have := ih n
      omega

/-- A word that has a place stands at the head of some end of the text. -/
theorem exists_headWord_of_count_ne_zero {k t : Text} (hk : isCapitalWord k = true)
    (h : count k t ≠ 0) : ∃ x y, t = x ++ y ∧ headWord y = k := by
  induction t with
  | nil => exact absurd rfl h
  | cons c t ih =>
    by_cases hc : headWord (c :: t) = k
    · exact ⟨[], c :: t, rfl, hc⟩
    · have hr : (read? k (c :: t)).isSome = false := by
        rw [← Bool.not_eq_true, isSome_read?_iff hk]
        exact hc
      rw [count, hr] at h
      obtain ⟨x, y, rfl, hy⟩ := ih (by simpa using h)
      exact ⟨c :: x, y, rfl, hy⟩

/-- Every place of `OrderBy` has a place of `By` five characters on. -/
theorem count_orderBy_le (t : Text) :
    count Word.orderBy t ≤ count Word.introducer t := by
  have key : count Word.orderBy t ≤ count Word.introducer (t.drop 5) := by
    induction t with
    | nil => simp
    | cons c t ih =>
      rw [count, List.drop_succ_cons]
      cases hr : read? Word.orderBy (c :: t) with
      | none =>
        have hle : count Word.introducer (t.drop 5) ≤ count Word.introducer (t.drop 4) := by
          have := count_drop_le Word.introducer (t.drop 4) 1
          rwa [List.drop_drop] at this
        simp only [Option.isSome_none, Bool.false_eq_true, if_false]
        omega
      | some behind =>
        obtain ⟨ht, hb⟩ := (read?_eq_some_iff_opens (by decide)).mp hr
        have hs : c :: t = 'O' :: 'r' :: 'd' :: 'e' :: 'r' :: 'B' :: 'y' :: behind := ht
        obtain ⟨-, rfl⟩ := List.cons.inj hs
        have hy : read? Word.introducer ('B' :: 'y' :: behind) = some behind :=
          read?_append (by decide) hb
        have hc : count Word.introducer ('B' :: 'y' :: behind) =
            1 + count Word.introducer ('y' :: behind) := by
          rw [count, hy]
          rfl
        simp only [List.drop_succ_cons, List.drop_zero] at ih ⊢
        rw [hc]
        simp only [Option.isSome_some, if_true]
        omega
  exact Nat.le_trans key (count_drop_le _ _ _)

end Keyword

end QueryNames
