import QueryNames.Proofs.OrderPlaces

/-!
# Joining criteria

In a separable schema what stands behind the criteria of a name does not change how these are read.
So two names can be joined behind `By` by a conjunction if nothing but criteria stands in the first
one, and the joined name says what both say.
-/

namespace QueryNames

open Text

namespace Predicate

variable {α : Type}

/-- Branches joined by a conjunction. `Or` puts one list of branches behind the other, and `And`
makes one branch of the last and the first one. -/
def connect (k : Conjunction) (p q : List (List α)) : List (List α) :=
  match k with
  | .or => p ++ q
  | .and => p.dropLast ++ (p.getLast?.getD [] ++ q.head?.getD []) :: q.tail

/-- Only the last one of the branches in front changes. -/
theorem connect_cons (k : Conjunction) (branch : List α) {p : List (List α)} (hp : p ≠ [])
    (q : List (List α)) : connect k (branch :: p) q = branch :: connect k p q := by
  cases k with
  | or => rfl
  | and =>
    obtain ⟨b, p, rfl⟩ := List.exists_cons_of_ne_nil hp
    rfl

/-- A criterion that opens the first branch opens it behind a conjunction, too. -/
theorem connect_modifyHead (k : Conjunction) (a : α) {p : List (List α)} (hp : p ≠ [])
    (q : List (List α)) :
    connect k (p.modifyHead (a :: ·)) q = (connect k p q).modifyHead (a :: ·) := by
  obtain ⟨b, p, rfl⟩ := List.exists_cons_of_ne_nil hp
  cases p with
  | nil => cases k <;> rfl
  | cons b' p => cases k <;> rfl

/-- A conjunction in the midst of criteria joins the branches on both sides of it. -/
theorem branches_append (front joined : List (α × Conjunction)) (a b : α) (k : Conjunction) :
    branches (front ++ (a, k) :: joined) (some b) =
      connect k (branches front (some a)) (branches joined (some b)) := by
  -- a criterion with `And` behind it opens the branch that comes next
  have hand : ∀ (c : α) (m : List (α × Conjunction)) (l : α),
      branches ((c, .and) :: m) (some l) = (branches m (some l)).modifyHead (c :: ·) := by
    intro c m l
    obtain ⟨branch, others, h⟩ := List.exists_cons_of_ne_nil (branches_ne_nil m l)
    rw [branches_cons_and c h, h]
    rfl
  induction front with
  | nil =>
    cases k with
    | or => rfl
    | and =>
      obtain ⟨branch, others, h⟩ := List.exists_cons_of_ne_nil (branches_ne_nil joined b)
      rw [List.nil_append, hand, h]
      rfl
  | cons m front ih =>
    obtain ⟨c, k'⟩ := m
    cases k' with
    | and => rw [List.cons_append, hand, hand, ih, connect_modifyHead k c (branches_ne_nil _ _)]
    | or => rw [List.cons_append, branches, branches, ih, connect_cons k [c] (branches_ne_nil _ _)]

variable {s : Schema} {t f y last tail : Text} {front joined : List (Text × Conjunction)}

/-- No identifier of a separable schema reaches beyond a criterion without a defect. -/
theorem fits_of_defect? (hs : s.IsSeparable) (h : defect? s t = none) (y : Text) : s.Fits t y :=
  (Criterion.isDeclared_of_defect? h).fits hs.isPrefixFree hs.lacksMarkers y

/-- Criteria that are understood stay as they are when a conjunction follows them. -/
theorem chain_append_of_isUnderstood (hs : s.IsSeparable) (h : chain s t = ⟨joined, last, []⟩)
    (hu : (chain s t).IsUnderstood s) (k : Conjunction) (hy : Opens y) :
    chain s (t ++ ((Terminator.join k).word ++ y)) =
      ⟨joined ++ (last, k) :: (chain s y).joined, (chain s y).last, (chain s y).tail⟩ := by
  obtain ⟨htext, hsplit, hopen⟩ := splitCriterion_last h
  rw [h] at hu
  rw [← List.append_nil joined] at h
  rw [htext, List.append_assoc, chain_joinedText_append_of_fits h
    (fun m hm y ↦ fits_of_defect? hs (hu.joined m hm) _)
    fun hne ↦ (hopen hne).append (Terminator.opens_word_append (.join k) y),
    chain_of_join (splitCriterion_append_word hsplit hy (fits_of_defect? hs hu.last _))]

private theorem count_orderBy_join_append (hs : s.IsSeparable) (hd : defect? s f = none)
    (hsplit : splitCriterion s f = (f, none)) (k : Conjunction) (hy : Opens y) :
    Keyword.count Word.orderBy (f ++ ((Terminator.join k).word ++ y)) =
      Keyword.count Word.orderBy y := by
  have hcount := Keyword.count_append_of_bars (t := f) (Terminator.endsInLetter_word .order)
    (Terminator.opens_word_append (.join k) y) (Terminator.isBorder_word_append (.join k) y .order)
  have hf : Keyword.count Terminator.order.word f = 0 := count_orderBy_eq_zero hs hd hsplit
  rw [hf, Nat.zero_add] at hcount
  exact hcount.trans (k.count_orderBy_append hy)

private theorem count_orderBy_joinedText_append (hs : s.IsSeparable)
    (h : chain s t = ⟨front ++ joined, last, tail⟩) (hd : ∀ m ∈ front, defect? s m.1 = none)
    (hy : front ≠ [] → Opens y) :
    Keyword.count Word.orderBy (joinedText front ++ y) = Keyword.count Word.orderBy y := by
  induction front generalizing t with
  | nil => rfl
  | cons m front ih =>
    obtain ⟨f, k⟩ := m
    obtain ⟨behind, hsplit, hbehind⟩ := chain_eq_cons_iff.mp h
    obtain ⟨hf, hfront⟩ := List.forall_mem_cons.mp hd
    have hopen : Opens y := hy (List.cons_ne_nil _ _)
    rw [joinedText_cons_append, count_orderBy_join_append hs hf (splitCriterion_self hsplit) k
      ((opens_joinedText_tail h).append hopen), ih hbehind hfront fun _ ↦ hopen]

/-- The places of `OrderBy` behind criteria that are understood and a conjunction are all places of
it. -/
theorem count_orderBy_append_of_isUnderstood (hs : s.IsSeparable)
    (h : chain s t = ⟨joined, last, []⟩) (hu : (chain s t).IsUnderstood s) (k : Conjunction)
    (hy : Opens y) :
    Keyword.count Word.orderBy (t ++ ((Terminator.join k).word ++ y)) =
      Keyword.count Word.orderBy y := by
  obtain ⟨htext, hsplit, hopen⟩ := splitCriterion_last h
  rw [h] at hu
  rw [← List.append_nil joined] at h
  rw [htext, List.append_assoc, count_orderBy_joinedText_append hs h hu.joined fun hne ↦
    (hopen hne).append (Terminator.opens_word_append (.join k) y),
    count_orderBy_join_append hs hu.last hsplit k hy]

end Predicate

/-- Nothing stands behind the criteria if nothing is read there. -/
theorem Closing.IsRead.eq_nil {g : Grammar} {s : Schema} {t : Text}
    (h : IsRead g.missingDirection s t .absent) : t = [] := by
  cases h with
  | absent => rfl
  | present edge _ hread => exact (eq_text_of_read hread).1

namespace Grammar

variable {g : Grammar} {s : Schema} {verb t₁ t₂ : Text} {p₁ p₂ : Predicate} {c : Closing}
  {r₁ r₂ : Reading}

/-- Criteria that are understood can be joined by a conjunction. -/
theorem Understands.connect (hs : s.IsSeparable) (ht : Opens t₂)
    (h₁ : g.Understands s t₁ p₁ .absent) (h₂ : g.Understands s t₂ p₂ c) (k : Conjunction) :
    g.Understands s (t₁ ++ ((Terminator.join k).word ++ t₂)) (Predicate.connect k p₁ p₂) c := by
  have htail := h₁.closing.eq_nil
  have hpredicate := h₁.predicate
  have hu := h₁.isUnderstood
  cases hm : Predicate.chain s t₁ with
  | mk joined last tail =>
  rw [hm] at htail hpredicate
  obtain rfl : tail = [] := htail
  -- the last criterion gets a conjunction behind it, and the other chain follows unchanged
  have hchain := Predicate.chain_append_of_isUnderstood hs hm hu k ht
  have hcount := Predicate.count_orderBy_append_of_isUnderstood hs hm hu k ht
  rw [hm] at hu
  refine ⟨hcount.trans_le h₂.count_orderBy, ?_, ?_, ?_⟩
  · rw [hchain]
    refine ⟨List.forall_mem_append.mpr ⟨hu.joined, ?_⟩, h₂.isUnderstood.last⟩
    exact List.forall_mem_cons.mpr ⟨hu.last, h₂.isUnderstood.joined⟩
  · have hlast : last ≠ [] := hu.last_ne_nil
    rw [hchain, ← hpredicate, ← h₂.predicate, Predicate.ofChain, Predicate.ofChain,
      Predicate.ofChain, if_neg h₂.isUnderstood.last_ne_nil, if_neg hlast, List.map_append,
      List.map_cons, Predicate.branches_append]
  · rw [hchain]
    exact h₂.closing

/-- Two valid names with the same verb and no subject can be joined behind `By` by a conjunction if
nothing stands behind the criteria of the first one. The joined name is valid. Its branches are those
of the two names, joined by the conjunction, and behind its criteria stands what does in the second
one. -/
theorem read_joined (hg : g.IsPrefixFree) (hs : s.IsSeparable) (hv : verb ∈ g.verbs)
    (ht₁ : Opens t₁) (ht₂ : Opens t₂)
    (h₁ : g.read s (verb ++ (Word.introducer ++ t₁)) = .ok r₁) (hvalid₁ : r₁.isValid = true)
    (hclosing : r₁.query.closing = .absent)
    (h₂ : g.read s (verb ++ (Word.introducer ++ t₂)) = .ok r₂) (hvalid₂ : r₂.isValid = true)
    (k : Conjunction) :
    ∃ r, g.read s (verb ++ (Word.introducer ++ (t₁ ++ (k.word ++ t₂)))) = .ok r ∧
      r.isValid = true ∧
        r.query.predicate = Predicate.connect k r₁.query.predicate r₂.query.predicate ∧
          r.query.closing = r₂.query.closing := by
  obtain ⟨hname₁, hunderstands₁⟩ :=
    (exists_read_bare_iff hg hv ht₁).mp ⟨r₁, h₁, hvalid₁, rfl, hclosing⟩
  obtain ⟨hname₂, hunderstands₂⟩ :=
    (exists_read_bare_iff hg hv ht₂).mp ⟨r₂, h₂, hvalid₂, rfl, rfl⟩
  have hword : (Terminator.join k).word.all isNameChar = true := by cases k <;> decide
  refine (exists_read_bare_iff hg hv (ht₁.append (Terminator.opens_word_append (.join k) t₂))).mpr
    ⟨?_, hunderstands₁.connect hs ht₂ hunderstands₂ k⟩
  rw [List.all_append, List.all_append, hname₁, hword, hname₂]
  rfl

/-- A marker inside a property stays there when `And` puts the criteria of another name behind it. -/
theorem read_joined_sample :
    ∃ r, standard.read .sample
        "findByTextOrTeIgnoreCasextAndDateAndTextAllIgnoreCaseOrderByDateDesc".toList = .ok r ∧
      r.isValid = true ∧
      r.query.predicate =
        [[⟨some ⟨"text".toList, .string⟩, none, none, []⟩],
          [⟨some ⟨"text".toList, .string⟩, none, some .ignoreCase, []⟩,
            ⟨some ⟨"date".toList, .date⟩, none, none, []⟩,
            ⟨some ⟨"text".toList, .string⟩, none, none, []⟩]] ∧
      r.query.closing = ⟨some .ignoreCase, [⟨⟨"date".toList, .date⟩, some .descending⟩]⟩ := by
  obtain ⟨r₁, h₁, hvalid₁, hpredicate₁, hclosing₁⟩ :
      ∃ r, standard.read .sample
          ("find".toList ++ (Word.introducer ++ "TextOrTeIgnoreCasext".toList)) = .ok r ∧
        r.isValid = true ∧
        r.query.predicate =
          [[⟨some ⟨"text".toList, .string⟩, none, none, []⟩],
            [⟨some ⟨"text".toList, .string⟩, none, some .ignoreCase, []⟩]] ∧
        r.query.closing = .absent := exists_read_of_any (by decide +kernel)
  obtain ⟨r₂, h₂, hvalid₂, hpredicate₂, hclosing₂⟩ :
      ∃ r, standard.read .sample ("find".toList ++
          (Word.introducer ++ "DateAndTextAllIgnoreCaseOrderByDateDesc".toList)) = .ok r ∧
        r.isValid = true ∧
        r.query.predicate =
          [[⟨some ⟨"date".toList, .date⟩, none, none, []⟩,
            ⟨some ⟨"text".toList, .string⟩, none, none, []⟩]] ∧
        r.query.closing = ⟨some .ignoreCase, [⟨⟨"date".toList, .date⟩, some .descending⟩]⟩ :=
    exists_read_of_any (by decide +kernel)
  have hv : "find".toList ∈ standard.verbs := by decide
  obtain ⟨r, hread, hvalid, hpredicate, hclosing⟩ := read_joined (by decide)
    Schema.isSeparable_sample hv (by decide) (by decide) h₁ hvalid₁ hclosing₁ h₂ hvalid₂ .and
  refine ⟨r, hread, hvalid, ?_, hclosing.trans hclosing₂⟩
  rw [hpredicate, hpredicate₁, hpredicate₂]
  rfl

end Grammar

end QueryNames
