import QueryNames.Proofs.Branches
import QueryNames.Proofs.Fragment

/-!
# Reading a chain of criteria

How the section behind `By` is cut, one criterion at a time: a conjunction hands on the text behind
it, any other word ends the chain. From this follows that a chain whose criteria are written in full
is cut as it was written, and what reading it gives.
-/

namespace QueryNames.Predicate

open Text

/-- A criterion that nothing ends is a chain of its own. -/
theorem chain_of_none {s : Schema} {t before : Text} (h : splitCriterion s t = (before, none)) :
    chain s t = ⟨[], before, []⟩ := by
  rw [chain]
  split <;> simp_all

/-- A text without criteria is an empty chain. -/
theorem chain_nil (s : Schema) : chain s [] = ⟨[], [], []⟩ := by
  refine chain_of_none ?_
  simp only [splitCriterion, Schema.headProperty?_nil, Keyword.splitAtFirst?, List.append_nil]

/-- A conjunction hands on the text behind it. -/
theorem chain_of_join {s : Schema} {t before behind : Text} {k : Conjunction}
    (h : splitCriterion s t = (before, some (.join k, behind))) :
    chain s t = { chain s behind with joined := (before, k) :: (chain s behind).joined } := by
  rw [chain]
  split
  · next b k' r h' =>
    rw [h] at h'
    obtain ⟨rfl, rfl, rfl⟩ := by simpa using h'
    rfl
  all_goals simp_all

/-- Any other word ends the chain and stays in front of what follows the criteria. -/
theorem chain_of_word {s : Schema} {t before behind : Text} {w : Terminator}
    (h : splitCriterion s t = (before, some (w, behind))) (hw : ∀ k, w ≠ .join k) :
    chain s t = ⟨[], before, w.word ++ behind⟩ := by
  rw [chain]
  cases w with
  | join k => exact absurd rfl (hw k)
  | marker m => split <;> simp_all [Terminator.word]
  | order => split <;> simp_all [Terminator.word]

/-- A chain goes on exactly where a conjunction ends its first criterion. -/
theorem chain_eq_cons_iff {s : Schema} {t before last tail : Text} {k : Conjunction}
    {joined : List (Text × Conjunction)} :
    chain s t = ⟨(before, k) :: joined, last, tail⟩ ↔
      ∃ behind, splitCriterion s t = (before, some (.join k, behind)) ∧
        chain s behind = ⟨joined, last, tail⟩ := by
  constructor
  · intro hc
    rcases h : splitCriterion s t with ⟨b, _ | ⟨w, behind⟩⟩
    · rw [chain_of_none h] at hc
      cases hc
    · by_cases hw : ∀ k, w ≠ .join k
      · rw [chain_of_word h hw] at hc
        cases hc
      · obtain ⟨k', rfl⟩ := by simpa using hw
        rw [chain_of_join h] at hc
        obtain ⟨hj, hl, ht⟩ := Chain.mk.inj hc
        obtain ⟨hb, hrest⟩ := List.cons.inj hj
        obtain ⟨rfl, rfl⟩ := Prod.mk.inj hb
        refine ⟨behind, rfl, ?_⟩
        rw [← hrest, ← hl, ← ht]
  · rintro ⟨behind, h, hc⟩
    rw [chain_of_join h, hc]

/-- A chain ends exactly where no conjunction ends its first criterion. -/
theorem chain_eq_nil_iff {s : Schema} {t last tail : Text} :
    chain s t = ⟨[], last, tail⟩ ↔
      (splitCriterion s t = (last, none) ∧ tail = []) ∨
        ∃ w behind, splitCriterion s t = (last, some (w, behind)) ∧ (∀ k, w ≠ .join k) ∧
          tail = w.word ++ behind := by
  constructor
  · intro hc
    rcases h : splitCriterion s t with ⟨b, _ | ⟨w, behind⟩⟩
    · rw [chain_of_none h] at hc
      obtain ⟨-, rfl, rfl⟩ := Chain.mk.inj hc
      exact Or.inl ⟨rfl, rfl⟩
    · by_cases hw : ∀ k, w ≠ .join k
      · rw [chain_of_word h hw] at hc
        obtain ⟨-, rfl, rfl⟩ := Chain.mk.inj hc
        exact Or.inr ⟨w, behind, rfl, hw, rfl⟩
      · obtain ⟨k, rfl⟩ := by simpa using hw
        rw [chain_of_join h] at hc
        cases hc
  · rintro (⟨h, rfl⟩ | ⟨w, behind, h, hw, rfl⟩)
    · exact chain_of_none h
    · exact chain_of_word h hw

namespace Chain

/-- What may stand behind criteria that are written in full: nothing, or a word other than a
conjunction with a text that opens behind it. -/
def IsTail (t : Text) : Prop :=
  t = [] ∨ ∃ w behind, (∀ k, w ≠ Terminator.join k) ∧ Opens behind ∧ t = w.word ++ behind

/-- A marker for all criteria may stand behind them. -/
theorem isTail_marker (m : CaseMarker) {t : Text} (ht : Opens t) : IsTail (m.allWord ++ t) := by
  refine Or.inr ⟨.marker m, t, fun k hk ↦ ?_, ht, rfl⟩
  cases hk

/-- An order clause may stand behind the criteria. -/
theorem isTail_order {t : Text} (ht : Opens t) : IsTail (Word.orderBy ++ t) := by
  refine Or.inr ⟨.order, t, fun k hk ↦ ?_, ht, rfl⟩
  cases hk

/-- All criteria of a chain are written in full; the last one may be missing if nothing follows. -/
structure IsWritten (s : Schema) (p : Chain) : Prop where
  joined : ∀ m ∈ p.joined, ∃ c : Criterion, c.IsWritten s m.1
  last : (∃ c : Criterion, c.IsWritten s p.last) ∨ p.last = [] ∧ p.tail = []
  tail : IsTail p.tail

/-- A criterion is written in full or missing wherever one may stand in a chain. -/
structure IsSparse (s : Schema) (p : Chain) : Prop where
  joined : ∀ m ∈ p.joined, m.1 = [] ∨ ∃ c : Criterion, c.IsWritten s m.1
  last : p.last = [] ∨ ∃ c : Criterion, c.IsWritten s p.last
  tail : IsTail p.tail

variable {s : Schema} {p : Chain}

/-- In a written chain at most the last criterion is missing. -/
theorem IsWritten.isSparse (h : IsWritten s p) : IsSparse s p where
  joined m hm := Or.inr (h.joined m hm)
  last := h.last.symm.imp_left And.left
  tail := h.tail

/-- The end of a written chain is a written chain. -/
theorem IsWritten.of_cons {m : Text × Conjunction} {joined : List (Text × Conjunction)}
    {last tail : Text} (h : IsWritten s ⟨m :: joined, last, tail⟩) :
    IsWritten s ⟨joined, last, tail⟩ :=
  ⟨fun m' hm ↦ h.joined m' (List.mem_cons_of_mem m hm), h.last, h.tail⟩

/-- Behind its first conjunction a sparse chain is a sparse chain. -/
theorem IsSparse.of_cons {m : Text × Conjunction} {joined : List (Text × Conjunction)}
    {last tail : Text} (h : IsSparse s ⟨m :: joined, last, tail⟩) :
    IsSparse s ⟨joined, last, tail⟩ :=
  ⟨fun m' hm ↦ h.joined m' (List.mem_cons_of_mem m hm), h.last, h.tail⟩

/-- A tail opens. -/
theorem IsTail.opens {t : Text} (h : IsTail t) : Opens t := by
  rcases h with rfl | ⟨w, behind, -, -, rfl⟩
  · exact opens_nil
  · refine (opens_append_of_ne_nil (Terminator.word_ne_nil w)).mpr ?_
    rcases w with (_ | _) | (_ | _) | _ <;> decide

/-- The text of a sparse chain opens. -/
theorem IsSparse.opens_text (h : IsSparse s p) : Opens p.text := by
  have hopens : ∀ t : Text, (t = [] ∨ ∃ c : Criterion, c.IsWritten s t) → Opens t := by
    rintro t (rfl | ⟨c, hc⟩)
    · exact opens_nil
    · exact hc.opens
  obtain ⟨joined, last, tail⟩ := p
  rw [text]
  refine Opens.append (Opens.append ?_ (hopens last h.last)) h.tail.opens
  cases joined with
  | nil => exact opens_nil
  | cons m joined =>
    have hword : Opens (m.2.word ++ joined.flatMap fun m ↦ m.1 ++ m.2.word) := by
      cases m.2 <;> exact opens_cons.mpr rfl
    rw [List.flatMap_cons, List.append_assoc]
    exact (hopens m.1 (h.joined m List.mem_cons_self)).append hword

/-- The text of a written chain opens. -/
theorem IsWritten.opens_text (h : IsWritten s p) : Opens p.text := h.isSparse.opens_text

end Chain

/-- The texts of a chain, grouped into branches. -/
def Chain.branchTexts (p : Chain) : List (List Text) := branches p.joined (some p.last)

/-- The texts of a chain with what stands behind each. -/
def Chain.places (p : Chain) : List (Text × Text) := Predicate.places p.tail p.branchTexts

/-- The text of a chain is that of its branches with its tail behind them. -/
theorem Chain.text_eq_joinBranches (p : Chain) : p.text = joinBranches p.branchTexts ++ p.tail := by
  rw [branchTexts, joinBranches_branches, text]

/-- The first text of a chain and the places behind it. -/
theorem Chain.places_cons (t : Text) (k : Conjunction) (joined : List (Text × Conjunction))
    (last tail : Text) :
    Chain.places ⟨(t, k) :: joined, last, tail⟩ =
      (t, k.word ++ Chain.text ⟨joined, last, tail⟩) :: Chain.places ⟨joined, last, tail⟩ := by
  rw [Chain.text_eq_joinBranches]
  exact places_branches_cons tail t k joined last

/-- No identifier reaches beyond a criterion that is split off. -/
theorem fits_of_splitCriterion {s : Schema} {t before y : Text} {m : Option (Terminator × Text)}
    (h : splitCriterion s t = (before, m)) (ht : t = before ++ y) : s.Fits before y := by
  intro p hp hpre
  rw [← ht] at hpre
  simp only [splitCriterion] at h
  cases hh : s.headProperty? t with
  | none => exact absurd hpre (Schema.headProperty?_eq_none_iff.mp hh p hp)
  | some q =>
    have hmax := (Schema.headProperty?_eq_some_iff.mp hh).2.2 p hp hpre
    have hle : q.1.identifier.length ≤ before.length := by
      simp only [hh] at h
      split at h
      · rw [← (Prod.mk.inj h).1, List.length_append]
        omega
      · rw [← (Prod.mk.inj h).1, List.length_append]
        omega
    omega

/-- No identifier reaches beyond a criterion of any chain that a text is cut into. -/
theorem fits_chain {s : Schema} {t : Text} {p : Chain} (h : chain s t = p) :
    ∀ m ∈ p.places, s.Fits m.1 m.2 := by
  obtain ⟨joined, last, tail⟩ := p
  induction joined generalizing t with
  | nil =>
    intro m hm
    rw [List.mem_singleton.mp hm]
    have htext : t = last ++ tail := by
      rw [← Chain.text_chain s t, h]
      rfl
    rcases chain_eq_nil_iff.mp h with ⟨hsplit, -⟩ | ⟨w, behind, hsplit, -⟩
    · exact fits_of_splitCriterion hsplit htext
    · exact fits_of_splitCriterion hsplit htext
  | cons m joined ih =>
    obtain ⟨before, k⟩ := m
    obtain ⟨behind, hsplit, hrest⟩ := chain_eq_cons_iff.mp h
    rw [Chain.places_cons]
    refine List.forall_mem_cons.mpr ⟨fits_of_splitCriterion hsplit ?_, ih hrest⟩
    rw [eq_of_splitCriterion hsplit, List.append_assoc, ← hrest, Chain.text_chain]
    rfl

/-- A written chain is cut as it was written, unless an identifier reaches beyond a criterion. -/
theorem chain_text_of_fits {s : Schema} {p : Chain} (h : p.IsWritten s)
    (hf : ∀ m ∈ p.places, s.Fits m.1 m.2) : chain s p.text = p := by
  obtain ⟨joined, last, tail⟩ := p
  induction joined with
  | nil =>
    have hfit : s.Fits last tail := hf (last, tail) (List.mem_singleton_self _)
    rw [Chain.text, List.flatMap_nil, List.nil_append]
    refine chain_eq_nil_iff.mpr ?_
    rcases h.last with ⟨c, hc⟩ | ⟨hl, ht⟩
    · rcases h.tail with ht | ⟨w, behind, hw, hb, ht⟩
      · left
        rw [show tail = [] from ht, List.append_nil]
        exact ⟨hc.splitCriterion_self, rfl⟩
      · right
        rw [show tail = w.word ++ behind from ht] at hfit ⊢
        exact ⟨w, behind, hc.splitCriterion_append hfit (Terminator.readLongest?_append w hb), hw,
          rfl⟩
    · left
      obtain rfl : last = [] := hl
      obtain rfl : tail = [] := ht
      exact ⟨by simp [splitCriterion, Keyword.splitAtFirst?], rfl⟩
  | cons m joined ih =>
    obtain ⟨t, k⟩ := m
    obtain ⟨c, hc⟩ := h.joined (t, k) List.mem_cons_self
    have hrest := h.of_cons
    rw [Chain.places_cons] at hf
    obtain ⟨hfit, hfits⟩ := List.forall_mem_cons.mp hf
    refine chain_eq_cons_iff.mpr ⟨Chain.text ⟨joined, last, tail⟩, ?_, ih hrest hfits⟩
    have htext : Chain.text ⟨(t, k) :: joined, last, tail⟩ =
        t ++ ((Terminator.join k).word ++ Chain.text ⟨joined, last, tail⟩) := by
      simp only [Chain.text, List.flatMap_cons, List.append_assoc, Terminator.word]
    rw [htext]
    exact hc.splitCriterion_append hfit (Terminator.readLongest?_append (.join k) hrest.opens_text)

/-- The word that ends a criterion is read in front of what stands behind it. -/
theorem readLongest?_of_splitCriterion {s : Schema} {t before behind : Text} {w : Terminator}
    (h : splitCriterion s t = (before, some (w, behind))) :
    Keyword.readLongest? Terminator.word Terminator.all (w.word ++ behind) = some (w, behind) := by
  simp only [splitCriterion] at h
  split at h
  · next b w' behind' hsplit =>
    have heq := Option.some.inj (Prod.mk.inj h).2
    rw [Prod.mk.injEq] at heq
    rw [← heq.1, ← heq.2]
    exact Keyword.readLongest?_of_splitAtFirst? hsplit
  · cases (Prod.mk.inj h).2

/-- What stands behind the word that ends a criterion opens. -/
theorem opens_of_splitCriterion {s : Schema} {t before behind : Text} {w : Terminator}
    (h : splitCriterion s t = (before, some (w, behind))) : Opens behind := by
  have hread := (of_longest? (readLongest?_of_splitCriterion h)).2
  exact ((Keyword.read?_eq_some_iff_opens (Terminator.endsInLetter_word w)).mp hread).2

/-- In a separable schema no identifier reaches beyond a criterion of a written chain. -/
theorem Chain.IsWritten.fits {s : Schema} {p : Chain} (hs : s.IsSeparable) (h : p.IsWritten s) :
    ∀ m ∈ p.places, s.Fits m.1 m.2 := by
  obtain ⟨joined, last, tail⟩ := p
  induction joined with
  | nil =>
    intro m hm
    rw [List.mem_singleton.mp hm]
    rcases h.last with ⟨c, hc⟩ | ⟨hl, ht⟩
    · exact hc.fits hs _
    · rw [show last = [] from hl, show tail = [] from ht]
      exact fun q _ hpre ↦ hpre.length_le
  | cons m joined ih =>
    obtain ⟨c, hc⟩ := h.joined m List.mem_cons_self
    rw [Chain.places_cons]
    exact List.forall_mem_cons.mpr ⟨hc.fits hs _, ih h.of_cons⟩

/-- In a separable schema a written chain is cut as it was written. -/
theorem chain_text {s : Schema} {p : Chain} (hs : s.IsSeparable) (h : p.IsWritten s) :
    chain s p.text = p :=
  chain_text_of_fits h (h.fits hs)

/-- In a written chain no conjunction stands next to an empty text that more text follows. -/
theorem Chain.IsWritten.emptyBranch?_eq_none {s : Schema} {p : Chain} (h : p.IsWritten s) :
    p.emptyBranch? = none := by
  have hfind : p.joined.find? (·.1 = []) = none := by
    refine List.find?_eq_none.mpr fun m hm ↦ ?_
    obtain ⟨c, hc⟩ := h.joined m hm
    simpa using hc.ne_nil
  have hlast : ¬(p.last = [] ∧ p.tail ≠ []) := by
    rintro ⟨hl, ht⟩
    rcases h.last with ⟨c, hc⟩ | ⟨-, ht'⟩
    · exact hc.ne_nil hl
    · exact ht ht'
  rw [emptyBranch?, hfind]
  simp only [if_neg hlast]

/-- A text that writes a criterion has no defect. -/
theorem defect?_eq_none {s : Schema} {c : Criterion} {t : Text} (hs : s.IsSeparable)
    (h : c.IsWritten s t) : defect? s t = none := by
  obtain ⟨p, -, hp⟩ := h.isDeclared.property_mem
  simp only [defect?, h.ofText_eq hs, hp, h.isDeclared.residue_eq_nil, if_true]

/-- The word `By` has no place in the criteria of a sparse chain. -/
theorem Chain.IsSparse.count_introducer {s : Schema} {p : Chain} (hs : s.IsSeparable)
    (h : p.IsSparse s) :
    Keyword.count Word.introducer p.text = Keyword.count Word.introducer p.tail := by
  have hzero : ∀ t : Text, (t = [] ∨ ∃ c : Criterion, c.IsWritten s t) →
      Keyword.count Word.introducer t = 0 := by
    rintro t (rfl | ⟨c, hc⟩)
    · rfl
    · exact hc.count_introducer hs
  obtain ⟨joined, last, tail⟩ := p
  induction joined with
  | nil =>
    rw [text, List.flatMap_nil, List.nil_append,
      Keyword.count_append Word.isCapitalWord_introducer h.tail.opens, hzero last h.last,
      Nat.zero_add]
  | cons m joined ih =>
    obtain ⟨t, k⟩ := m
    have htext : Chain.text ⟨(t, k) :: joined, last, tail⟩ =
        t ++ (k.word ++ Chain.text ⟨joined, last, tail⟩) := by
      simp only [Chain.text, List.flatMap_cons, List.append_assoc]
    have hk : Opens k.word ∧ k.word ≠ [] ∧ Keyword.count Word.introducer k.word = 0 := by
      cases k <;> decide
    have hopen : Opens (k.word ++ Chain.text ⟨joined, last, tail⟩) :=
      (opens_append_of_ne_nil hk.2.1).mpr hk.1
    rw [htext, Keyword.count_append Word.isCapitalWord_introducer hopen,
      Keyword.count_append Word.isCapitalWord_introducer h.of_cons.opens_text,
      hzero t (h.joined (t, k) List.mem_cons_self), hk.2.2, ih h.of_cons, Nat.zero_add,
      Nat.zero_add]

/-- Reading a written chain gives its criteria, and no defect but that of a missing last one. -/
theorem read_text {s : Schema} {p : Chain} (hs : s.IsSeparable) (h : p.IsWritten s)
    (hcount : Keyword.count Word.introducer p.tail ≤ 1) :
    read s p.text = .ok ⟨ofChain s p, endDefects p, next s p⟩ := by
  have horder : ¬1 < Keyword.count Word.orderBy p.text := by
    have := Keyword.count_orderBy_le p.text
    rw [h.isSparse.count_introducer hs] at this
    omega
  have hdefects : p.fragments.filterMap (defect? s) = [] := by
    apply List.filterMap_eq_nil_iff.mpr
    intro t ht
    rcases List.mem_append.mp ht with ht | ht
    · obtain ⟨m, hm, rfl⟩ := List.mem_map.mp ht
      obtain ⟨c, hc⟩ := h.joined m hm
      exact defect?_eq_none hs hc
    · split at ht
      · cases ht
      · next hne =>
        obtain rfl := List.mem_singleton.mp ht
        rcases h.last with ⟨c, hc⟩ | ⟨hl, -⟩
        · exact defect?_eq_none hs hc
        · exact absurd hl hne
  simp only [read, if_neg horder, chain_text hs h, h.emptyBranch?_eq_none, hdefects,
    List.nil_append]

/-- What follows the criteria is handed on. -/
theorem next_of_tail_ne_nil (s : Schema) {p : Chain} (h : p.tail ≠ []) :
    next s p = .resume p.tail :=
  if_pos h

/-- Where nothing follows the criteria, a name breaks off in them. -/
theorem exists_next_eq_stop (s : Schema) {p : Chain} (h : p.tail = []) :
    ∃ edge, next s p = .stop edge := by
  simp only [next, h, ne_eq, not_true, if_false]
  split
  · exact ⟨_, rfl⟩
  · exact ⟨_, rfl⟩

/-- A name breaks off in the criteria only where nothing follows them. -/
theorem tail_of_next_eq_stop {s : Schema} {p : Chain} {edge : Edge} (h : next s p = .stop edge) :
    p.tail = [] := by
  by_contra hne
  rw [next_of_tail_ne_nil s hne] at h
  cases h

/-- What is handed on is what follows the criteria. -/
theorem tail_of_next_eq_resume {s : Schema} {p : Chain} {rest : Text}
    (h : next s p = .resume rest) : p.tail = rest := by
  by_cases ht : p.tail = []
  · simp only [next, ht, ne_eq, not_true, if_false] at h
    split at h <;> cases h
  · rw [next_of_tail_ne_nil s ht] at h
    exact Next.resume.inj h

/-- Behind a criterion that is written in full a name breaks off inside it. -/
theorem next_of_isWritten {s : Schema} {p : Chain} {c : Criterion} (hs : s.IsSeparable)
    (ht : p.tail = []) (hc : c.IsWritten s p.last) : next s p = .stop ⟨.criterion c, []⟩ := by
  obtain ⟨q, -, hq⟩ := hc.isDeclared.property_mem
  simp only [next, ht, ne_eq, not_true, if_false, hc.ofText_eq hs, hq, Option.isSome_some, if_true,
    hc.isDeclared.residue_eq_nil]

/-- Where a criterion is missing at the end, a name breaks off at its start. -/
theorem next_of_last_eq_nil (s : Schema) {p : Chain} (ht : p.tail = []) (hl : p.last = []) :
    next s p = .stop ⟨.criterionStart (p.lastConjunction? == some .or), []⟩ := by
  have hnone : (Criterion.ofText s []).property = none := by
    simp only [Criterion.ofText, CaseMarker.cut, Schema.headProperty?_nil]
  simp only [next, ht, ne_eq, not_true, if_false, hl, hnone, Option.isSome_none, Bool.false_eq_true]

/-- Complete criteria are written as a chain, whatever may stand behind them. -/
theorem exists_isWritten {s : Schema} {p : Predicate} (hp : p ≠ [])
    (hb : ∀ branch ∈ p, branch ≠ []) (hc : ∀ c ∈ p.criteria, c.IsDeclared s)
    (hof : ∀ c ∈ p.criteria, Criterion.ofText s c.text = c) {tail : Text}
    (ht : Chain.IsTail tail) :
    ∃ m : Chain, m.IsWritten s ∧ m.last ≠ [] ∧ m.tail = tail ∧ m.text = p.text ++ tail ∧
      m.branchTexts = p.map (List.map Criterion.text) ∧ ofChain s m = p := by
  obtain ⟨joined, last, rfl⟩ := exists_branches_eq hp hb
  have hflat : Predicate.criteria (branches joined (some last)) = joined.map Prod.fst ++ [last] :=
    flatten_branches joined (some last)
  have hmem : ∀ m ∈ joined, m.1 ∈ Predicate.criteria (branches joined (some last)) := by
    intro m hm
    rw [hflat]
    exact List.mem_append_left _ (List.mem_map_of_mem hm)
  have hmemLast : last ∈ Predicate.criteria (branches joined (some last)) := by
    rw [hflat]
    exact List.mem_append_right _ (List.mem_singleton_self last)
  have hlast := (hc last hmemLast).isWritten_text
  refine ⟨⟨joined.map fun m ↦ (m.1.text, m.2), last.text, tail⟩, ⟨?_, Or.inl ⟨last, hlast⟩, ht⟩,
    hlast.ne_nil, rfl, ?_, ?_, ?_⟩
  · intro m hm
    obtain ⟨m', hm', rfl⟩ := List.mem_map.mp hm
    exact ⟨m'.1, (hc m'.1 (hmem m' hm')).isWritten_text⟩
  · rw [text_branches, Chain.text, List.flatMap_map]
  · rw [Chain.branchTexts, map_branches, Option.map_some]
  · have hback : joined.map (fun m ↦ (Criterion.ofText s m.1.text, m.2)) = joined := by
      refine (List.map_congr_left fun m hm ↦ ?_).trans (List.map_id joined)
      rw [hof m.1 (hmem m hm)]
      rfl
    rw [ofChain, if_neg hlast.ne_nil, hof last hmemLast, List.map_map]
    exact congrArg (branches · (some last)) hback

end QueryNames.Predicate
