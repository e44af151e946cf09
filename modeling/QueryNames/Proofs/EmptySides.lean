import Mathlib.Data.List.Chain
import QueryNames.Proofs.BareName
import QueryNames.Proofs.BrokenCriteria

/-!
# Conjunctions with an empty side

Criteria and conjunctions may be written one after the other in any order, as long as no two
criteria meet. Where no property can be taken for a word between criteria, such a sequence is cut as
it was written, with an empty text wherever a criterion is missing. So a conjunction is reported
exactly if no criterion stands directly in front of it, or if it comes last and something else
follows.
-/

namespace QueryNames

open Text

/-- A property that cannot be taken for a word between criteria, nor for its beginning. -/
structure Property.IsClear (p : Property) : Prop where
  head : ∀ piece ∈ (pieces p.identifier).head?, ∀ k : Conjunction, piece.text ≠ k.word
  not_isPrefix : ∀ w : Terminator, ¬p.identifier <+: w.word

instance (p : Property) : Decidable p.IsClear :=
  decidable_of_iff
    ((∀ piece ∈ (pieces p.identifier).head?, ∀ k ∈ Conjunction.all, piece.text ≠ k.word) ∧
      ∀ w ∈ Terminator.all, ¬p.identifier <+: w.word)
    ⟨fun h ↦ ⟨fun piece hp k ↦ h.1 piece hp k (by cases k <;> decide),
        fun w ↦ h.2 w (Terminator.mem_all w)⟩,
      fun h ↦ ⟨fun piece hp k _ ↦ h.head piece hp k, fun w _ ↦ h.not_isPrefix w⟩⟩

/-- The word at the head of a clear identifier is no conjunction. -/
theorem Property.IsClear.headWord_ne {p : Property} (h : p.IsClear) (k : Conjunction) :
    headWord p.identifier ≠ k.word := by
  intro he
  have hcap : isCapitalWord (headWord p.identifier) = true := by
    rw [he]
    cases k <;> decide
  cases hi : p.identifier with
  | nil =>
    rw [hi, headWord_nil] at hcap
    cases hcap
  | cons c t =>
    rw [hi, headWord, isCapitalWord, Bool.and_eq_true] at hcap
    refine h.head (.hump .capitalised (headWord p.identifier)) ?_ k he
    rw [hi, pieces_cons_of_isUpper t hcap.1]
    rfl

namespace Schema

variable {s : Schema}

/-- No property is read where a word between criteria stands. -/
theorem headProperty?_word_append (hs : s.IsSeparable) (hc : ∀ p ∈ s.properties, p.IsClear)
    (w : Terminator) {y : Text} (hy : Opens y) : s.headProperty? (w.word ++ y) = none := by
  refine headProperty?_eq_none_iff.mpr fun p hp hpre ↦ ?_
  rcases prefix_append_cases hpre with h | ⟨z, -, hz, hzy⟩
  · exact (hc p hp).not_isPrefix w h
  · have hopen : Opens z := hy.of_isPrefix hzy
    -- an identifier that goes on behind the word holds what separable schemas exclude
    cases w with
    | join k =>
      apply (hc p hp).headWord_ne k
      rw [hz, headWord_append (Terminator.word_ne_nil _) hopen]
      cases k <;> rfl
    | marker m =>
      apply hs.lacksMarkers p hp m
      rw [hz]
      exact ⟨"All".toList, z, by simp [Terminator.word, CaseMarker.allWord]⟩
    | order =>
      have hzero := (hs.lacksIntroducer p hp).count_eq_zero
      have hone : Keyword.count Word.introducer (Terminator.order).word = 1 := by decide
      rw [hz, Keyword.count_append Word.isCapitalWord_introducer hopen, hone] at hzero
      omega

end Schema

namespace Predicate

/-- In a chain that can be read no text of a criterion is empty. -/
theorem Chain.nil_notMem_fragments {m : Chain} (h : m.emptyBranch? = none) : [] ∉ m.fragments := by
  intro hmem
  rcases List.mem_append.mp hmem with hmem | hmem
  · obtain ⟨x, hx, hnil⟩ := List.mem_map.mp hmem
    rcases emptyBranch?_eq_none_iff.mp h with hfilled | hj
    · exact hfilled.joined x hx hnil
    · rw [hj] at hx
      cases hx
  · split at hmem
    · cases hmem
    · next hl => exact hl (List.mem_singleton.mp hmem).symm

/-- The chain with one more text in front and a conjunction behind that. -/
def Chain.push (m : Chain) (f : Text) (k : Conjunction) : Chain :=
  { m with joined := (f, k) :: m.joined }

section Sparse

variable {s : Schema} (hs : s.IsSeparable) (hc : ∀ p ∈ s.properties, p.IsClear)

include hs hc

/-- Where a criterion may be missing, the word behind it ends it. -/
theorem splitCriterion_word {f : Text} (hf : f = [] ∨ ∃ c : Criterion, c.IsWritten s f)
    (w : Terminator) {y : Text} (hy : Opens y) :
    splitCriterion s (f ++ (w.word ++ y)) = (f, some (w, y)) := by
  have hread := Terminator.readLongest?_append w hy
  rcases hf with rfl | ⟨c, hwritten⟩
  · have hne : w.word ++ y ≠ [] := List.append_ne_nil_of_left_ne_nil (Terminator.word_ne_nil w) y
    rw [List.nil_append, splitCriterion, Schema.headProperty?_word_append hs hc w hy]
    simp only [Keyword.splitAtFirst?_of_readLongest? hne hread, List.nil_append]
  · exact hwritten.splitCriterion_append (hwritten.fits hs _) hread

/-- A sparse chain is cut as it was written. -/
theorem chain_text_of_isSparse {m : Chain} (h : m.IsSparse s) : chain s m.text = m := by
  obtain ⟨joined, last, tail⟩ := m
  induction joined with
  | nil =>
    rw [Chain.text, List.flatMap_nil, List.nil_append]
    refine chain_eq_nil_iff.mpr ?_
    rcases h.tail with ht | ⟨w, behind, hw, hb, ht⟩
    · left
      obtain rfl : tail = [] := ht
      rw [List.append_nil]
      rcases h.last with hl | ⟨c, hwritten⟩
      · rw [show last = [] from hl, splitCriterion, Schema.headProperty?_nil]
        exact ⟨rfl, rfl⟩
      · exact ⟨hwritten.splitCriterion_self, rfl⟩
    · right
      obtain rfl : tail = w.word ++ behind := ht
      exact ⟨w, behind, splitCriterion_word hs hc h.last w hb, hw, rfl⟩
  | cons m joined ih =>
    obtain ⟨f, k⟩ := m
    have hrest := h.of_cons
    refine chain_eq_cons_iff.mpr ⟨Chain.text ⟨joined, last, tail⟩, ?_, ih hrest⟩
    have htext : Chain.text ⟨(f, k) :: joined, last, tail⟩ =
        f ++ ((Terminator.join k).word ++ Chain.text ⟨joined, last, tail⟩) := by
      simp only [Chain.text, List.flatMap_cons, List.append_assoc, Terminator.word]
    rw [htext]
    exact splitCriterion_word hs hc (h.joined _ List.mem_cons_self) (.join k) hrest.opens_text

/-- Reading a sparse chain gives its criteria, unless a conjunction has an empty side. -/
theorem read_text_of_isSparse {m : Chain} (h : m.IsSparse s)
    (hcount : Keyword.count Word.introducer m.tail ≤ 1) :
    read s m.text =
      match m.emptyBranch? with
      | some k => .error (.emptyBranch k)
      | none => .ok ⟨ofChain s m, endDefects m, next s m⟩ := by
  have horder : ¬1 < Keyword.count Word.orderBy m.text := by
    have := Keyword.count_orderBy_le m.text
    rw [h.count_introducer hs] at this
    omega
  simp only [read, if_neg horder, chain_text_of_isSparse hs hc h]
  cases he : m.emptyBranch? with
  | some k => rfl
  | none =>
    have hdefects : m.fragments.filterMap (defect? s) = [] := by
      refine List.filterMap_eq_nil_iff.mpr fun f hf ↦ ?_
      have hside : f = [] ∨ ∃ c : Criterion, c.IsWritten s f := by
        rcases List.mem_append.mp hf with hf | hf
        · obtain ⟨x, hx, rfl⟩ := List.mem_map.mp hf
          exact h.joined x hx
        · split at hf
          · cases hf
          · rw [List.mem_singleton.mp hf]
            exact h.last
      rcases hside with rfl | ⟨c, hwritten⟩
      · exact absurd hf (Chain.nil_notMem_fragments he)
      · exact defect?_eq_none hs hwritten
    simp only [hdefects, List.nil_append]

end Sparse

/-! ### Sequences of criteria and conjunctions -/

/-- A member of what stands behind `By`. -/
inductive Member where
  | criterion (criterion : Criterion)
  | conjunction (conjunction : Conjunction)
deriving DecidableEq, Repr

namespace Member

/-- The written form of a member. -/
def text : Member → Text
  | criterion c => c.text
  | conjunction k => k.word

/-- The criterion that a member is. -/
def criterion? : Member → Option Criterion
  | criterion c => some c
  | conjunction _ => none

/-- The conjunction that a member is. -/
def conjunction? : Member → Option Conjunction
  | criterion _ => none
  | conjunction k => some k

/-- No two criteria meet. -/
def AreApart (ms : List Member) : Prop :=
  ms.IsChain fun a b ↦ a.criterion?.isSome → b.criterion?.isNone

instance (ms : List Member) : Decidable (AreApart ms) :=
  inferInstanceAs (Decidable (List.IsChain _ _))

/-- The first conjunction without a criterion directly in front of it. The flag tells whether a
criterion stands directly in front of the members. -/
def bare? : Bool → List Member → Option Conjunction
  | _, [] => none
  | _, criterion _ :: rest => bare? true rest
  | true, conjunction _ :: rest => bare? false rest
  | false, conjunction k :: _ => some k

/-- The first conjunction with an empty side that has more text behind it. -/
def emptySide? (ms : List Member) (tail : Text) : Option Conjunction :=
  match bare? false ms with
  | some k => some k
  | none => if tail = [] then none else ms.getLast?.bind conjunction?

/-- Where no conjunction has an empty side, each has a criterion in front. -/
theorem bare?_eq_none {ms : List Member} {tail : Text} (h : emptySide? ms tail = none) :
    bare? false ms = none := by
  rw [emptySide?] at h
  split at h
  · cases h
  · next hbare => exact hbare

/-- The defect of members that end where a criterion is needed. -/
def endDefects (ms : List Member) : List Defect :=
  match ms.getLast? with
  | none => [.emptyPredicate]
  | some (conjunction k) => [.danglingConjunction k]
  | some (criterion _) => []

/-- The criteria between one `Or` and the next. -/
def groups (ms : List Member) : List (List Criterion) :=
  (ms.splitOnP (· == conjunction .or)).map (List.filterMap criterion?)

/-- The criteria between one `Or` and the next make a branch, if there are any. -/
def predicate (ms : List Member) : Predicate := (groups ms).filter (· ≠ [])

/-- The members as a chain, with an empty text wherever a criterion is missing. -/
def toChain (tail : Text) : List Member → Chain
  | [] => ⟨[], [], tail⟩
  | conjunction k :: rest => (toChain tail rest).push [] k
  | criterion c :: conjunction k :: rest => (toChain tail rest).push c.text k
  | criterion c :: _ => ⟨[], c.text, tail⟩

variable {s : Schema} {tail : Text} {ms : List Member}

/-- Members that are apart begin with a conjunction or with a criterion that a conjunction or
nothing follows. -/
theorem AreApart.induct {motive : (ms : List Member) → AreApart ms → Prop}
    (nil : motive [] List.IsChain.nil)
    (conjunction : ∀ k rest hcons, (h : AreApart rest) → motive rest h →
      motive (.conjunction k :: rest) hcons)
    (joined : ∀ c k rest hcons, (h : AreApart rest) → motive rest h →
      motive (.criterion c :: .conjunction k :: rest) hcons)
    (last : ∀ c h, motive [.criterion c] h) :
    ∀ ms h, motive ms h
  | [], _ => nil
  | .conjunction k :: rest, h =>
    have hrest : AreApart rest := List.IsChain.of_cons h
    conjunction k rest h hrest (induct nil conjunction joined last rest hrest)
  | .criterion c :: .conjunction k :: rest, h =>
    have hrest : AreApart rest := List.IsChain.of_cons (List.IsChain.of_cons h)
    joined c k rest h hrest (induct nil conjunction joined last rest hrest)
  | [.criterion c], h => last c h
  | .criterion _ :: .criterion _ :: _, h => by
    simp [AreApart, criterion?] at h

/-- The text of the chain is that of the members with the tail behind them. -/
theorem text_toChain (h : AreApart ms) : (toChain tail ms).text = ms.flatMap text ++ tail := by
  have hpush : ∀ (m : Chain) f k, (m.push f k).text = f ++ (k.word ++ m.text) := by
    intro m f k
    simp only [Chain.push, Chain.text, List.flatMap_cons, List.append_assoc]
  induction ms, h using AreApart.induct with
  | nil => rfl
  | conjunction k rest _ _ ih => simp [toChain, hpush, ih, text]
  | joined c k rest _ _ ih => simp [toChain, hpush, ih, text]
  | last c _ => simp [toChain, Chain.text, text]

/-- The tail of the chain is the given one. -/
@[simp] theorem tail_toChain (tail : Text) (ms : List Member) : (toChain tail ms).tail = tail := by
  fun_induction toChain tail ms with
  | case1 => rfl
  | case2 k rest ih => exact ih
  | case3 c k rest ih => exact ih
  | case4 c rest _ => rfl

/-- Complete criteria give a sparse chain. -/
theorem isSparse_toChain (h : AreApart ms) (hd : ∀ c, criterion c ∈ ms → c.IsDeclared s)
    (ht : Chain.IsTail tail) : (toChain tail ms).IsSparse s := by
  induction ms, h using AreApart.induct with
  | nil => exact ⟨List.forall_mem_nil _, Or.inl rfl, ht⟩
  | conjunction k rest _ _ ih =>
    have hrest := ih fun c hc ↦ hd c (List.mem_cons_of_mem _ hc)
    exact ⟨List.forall_mem_cons.mpr ⟨Or.inl rfl, hrest.joined⟩, hrest.last, hrest.tail⟩
  | joined c k rest _ _ ih =>
    have hrest := ih fun d hc ↦ hd d (List.mem_cons_of_mem _ (List.mem_cons_of_mem _ hc))
    have hwritten := (hd c List.mem_cons_self).isWritten_text
    exact ⟨List.forall_mem_cons.mpr ⟨Or.inr ⟨c, hwritten⟩, hrest.joined⟩, hrest.last, hrest.tail⟩
  | last c _ =>
    exact ⟨List.forall_mem_nil _, Or.inr ⟨c, (hd c List.mem_cons_self).isWritten_text⟩, ht⟩

/-- A chain ends as a sequence with the given last member does. -/
def EndsLike (m : Chain) : Option Member → Prop
  | none => m.last = [] ∧ m.lastConjunction? = none
  | some (conjunction k) => m.last = [] ∧ m.lastConjunction? = some k
  | some (criterion _) => m.last ≠ []

/-- A text and a conjunction in front are last only if nothing follows. -/
theorem EndsLike.push {m : Chain} {last : Option Member} (h : EndsLike m last) (f : Text)
    (k : Conjunction) : EndsLike (m.push f k) (some (last.getD (conjunction k))) := by
  have hlast : (m.push f k).lastConjunction? = some (m.lastConjunction?.getD k) := by
    rw [Chain.push, Chain.lastConjunction?, Chain.lastConjunction?, List.getLast?_cons]
    cases m.joined.getLast? <;> rfl
  cases last with
  | none => exact ⟨h.1, by rw [hlast, h.2]; rfl⟩
  | some member =>
    cases member with
    | criterion _ => exact h
    | conjunction k' => exact ⟨h.1, by rw [hlast, h.2]; rfl⟩

/-- The last member tells how the chain ends. -/
theorem endsLike_toChain (tail : Text) (h : AreApart ms)
    (hd : ∀ c, criterion c ∈ ms → c.IsDeclared s) :
    EndsLike (toChain tail ms) ms.getLast? := by
  induction ms, h using AreApart.induct with
  | nil => exact ⟨rfl, rfl⟩
  | conjunction k rest _ _ ih =>
    rw [List.getLast?_cons]
    exact (ih fun c hc ↦ hd c (List.mem_cons_of_mem _ hc)).push [] k
  | joined c k rest _ _ ih =>
    rw [List.getLast?_cons, List.getLast?_cons]
    exact (ih fun d hc ↦ hd d (List.mem_cons_of_mem _ (List.mem_cons_of_mem _ hc))).push c.text k
  | last c _ => exact (hd c List.mem_cons_self).isWritten_text.ne_nil

/-- A chain that ends like members has their defect. -/
theorem EndsLike.endDefects_eq {m : Chain} (h : EndsLike m ms.getLast?) :
    Predicate.endDefects m = endDefects ms := by
  rw [endDefects, Predicate.endDefects]
  generalize ms.getLast? = last at h ⊢
  cases last with
  | none => rw [if_pos h.1, h.2]
  | some member =>
    cases member with
    | criterion _ => rw [if_neg h]
    | conjunction k => rw [if_pos h.1, h.2]

/-- The empty texts in front of conjunctions are those without a criterion there. -/
theorem find?_toChain (tail : Text) (h : AreApart ms)
    (hd : ∀ c, criterion c ∈ ms → c.IsDeclared s) :
    ((toChain tail ms).joined.find? (·.1 = [])).map Prod.snd = bare? false ms := by
  induction ms, h using AreApart.induct with
  | nil => rfl
  | conjunction k rest _ _ ih => rfl
  | joined c k rest _ _ ih =>
    have hne := (hd c List.mem_cons_self).isWritten_text.ne_nil
    rw [toChain, Chain.push, List.find?_cons_of_neg (by simpa using hne)]
    exact ih fun d hc ↦ hd d (List.mem_cons_of_mem _ (List.mem_cons_of_mem _ hc))
  | last c _ => rfl

/-- The conjunction with an empty side is the same in the chain. -/
theorem emptyBranch?_toChain (h : AreApart ms) (hd : ∀ c, criterion c ∈ ms → c.IsDeclared s) :
    (toChain tail ms).emptyBranch? = emptySide? ms tail := by
  have hbare := find?_toChain tail h hd
  have hends := endsLike_toChain tail h hd
  rw [emptySide?, Chain.emptyBranch?, ← hbare]
  cases (toChain tail ms).joined.find? (·.1 = []) with
  | some x => rfl
  | none =>
    rw [tail_toChain]
    by_cases ht : tail = []
    · simp [ht]
    · generalize ms.getLast? = last at hends ⊢
      cases last with
      | none => simp [ht, hends.1, hends.2]
      | some member =>
        cases member with
        | criterion c =>
          have hl : (toChain tail ms).last ≠ [] := hends
          simp [ht, hl, conjunction?]
        | conjunction k => simp [ht, hends.1, hends.2, conjunction?]

@[simp] theorem groups_nil : groups [] = [[]] := rfl

@[simp] theorem groups_criterion (c : Criterion) (ms : List Member) :
    groups (criterion c :: ms) = (groups ms).modifyHead (c :: ·) := by
  rw [groups, List.splitOnP_cons_eq_if_modifyHead, if_neg (by simp), groups]
  cases ms.splitOnP (· == conjunction .or) <;> rfl

@[simp] theorem groups_and (ms : List Member) : groups (conjunction .and :: ms) = groups ms := by
  rw [groups, List.splitOnP_cons_eq_if_modifyHead, if_neg (by simp), groups]
  cases ms.splitOnP (· == conjunction .or) <;> rfl

@[simp] theorem groups_or (ms : List Member) :
    groups (conjunction .or :: ms) = [] :: groups ms := by
  rw [groups, List.splitOnP_cons_eq_if_modifyHead, if_pos (by simp), groups]
  rfl

/-- Members among which each conjunction has a criterion in front begin with a criterion. -/
theorem exists_groups_eq (h : AreApart ms) (hbare : bare? false ms = none) :
    ms = [] ∨ ∃ g gs, groups ms = g :: gs ∧ g ≠ [] := by
  have hsome : ∀ ms : List Member, ∃ g gs, groups ms = g :: gs := by
    intro ms
    refine List.exists_cons_of_ne_nil fun hnil ↦ ?_
    exact List.splitOnP_ne_nil _ ms (List.map_eq_nil_iff.mp hnil)
  induction ms, h using AreApart.induct with
  | nil => exact Or.inl rfl
  | conjunction k rest _ _ _ => cases hbare
  | joined c k rest _ _ _ =>
    obtain ⟨g, gs, hg⟩ := hsome (conjunction k :: rest)
    exact Or.inr ⟨c :: g, gs, by rw [groups_criterion, hg]; rfl, List.cons_ne_nil c g⟩
  | last c _ => exact Or.inr ⟨[c], [], by simp, List.cons_ne_nil c []⟩

/-- Where each conjunction has a criterion in front, the chain gives the criteria branch by
branch. -/
theorem ofChain_toChain (hs : s.IsSeparable) (h : AreApart ms)
    (hd : ∀ c, criterion c ∈ ms → c.IsDeclared s) (hbare : bare? false ms = none) :
    ofChain s (toChain tail ms) = predicate ms := by
  induction ms, h using AreApart.induct with
  | nil => rfl
  | conjunction k rest _ _ ih => cases hbare
  | joined c k rest _ hrest ih =>
    have hmore := ih (fun d hc ↦ hd d (List.mem_cons_of_mem _ (List.mem_cons_of_mem _ hc))) hbare
    have hofText := (hd c List.mem_cons_self).isWritten_text.ofText_eq hs
    cases k with
    | or =>
      rw [predicate, groups_criterion, groups_or, toChain, Chain.push, ofChain, List.map_cons,
        branches, hofText]
      exact congrArg ([c] :: ·) hmore
    | and =>
      rw [predicate, groups_criterion, groups_and]
      rcases exists_groups_eq hrest hbare with rfl | ⟨g, gs, hg, hne⟩
      · rw [toChain, Chain.push, ofChain, List.map_cons, hofText]
        rfl
      · have hbranches : ofChain s (toChain tail rest) = g :: gs.filter (· ≠ []) := by
          rw [hmore, predicate, hg, List.filter_cons_of_pos (by simpa using hne)]
        rw [hg, toChain, Chain.push, ofChain, List.map_cons, hofText]
        exact branches_cons_and c hbranches
  | last c _ =>
    have hwritten := (hd c List.mem_cons_self).isWritten_text
    simp [toChain, ofChain, hwritten.ne_nil, hwritten.ofText_eq hs, predicate, branches]

end Member

end Predicate

namespace Grammar

open Predicate

variable {g : Grammar} {s : Schema} {verb : Text} {ms : List Member} {closing : Closing}

private theorem read_sparse {m : Chain} {t : Text} (hg : g.IsPrefixFree) (hv : verb ∈ g.verbs)
    (hm : m.IsSparse s) (hall : m.tail.all isNameChar = true) (ht : m.text = t) :
    g.read s (verb ++ (Word.introducer ++ t)) =
        g.readBehind s (verb ++ (Word.introducer ++ t)) verb (Word.introducer ++ t) ∧
      Subject.read s (Word.introducer ++ t) = ⟨.plain, [], .resume t⟩ := by
  subst ht
  exact ⟨read_bare hg hv (hm.all_isNameChar hall), Subject.read_introducer_append s hm.opens_text⟩

/-- A sequence of criteria and conjunctions behind `By` is refused exactly if a conjunction has an
empty side with more text behind it, and the first such conjunction is reported. Otherwise the
criteria are read branch by branch with what stands behind them, and at most a missing criterion at
the end is a defect. -/
theorem read_members (hg : g.IsPrefixFree) (hs : s.IsSeparable)
    (hclear : ∀ p ∈ s.properties, p.IsClear) (hv : verb ∈ g.verbs) (hms : Member.AreApart ms)
    (hd : ∀ c, .criterion c ∈ ms → c.IsDeclared s) (hc : ∀ i ∈ closing.order, i.IsDeclared g s) :
    match Member.emptySide? ms closing.text with
    | some k =>
      g.read s (verb ++ (Word.introducer ++ (ms.flatMap Member.text ++ closing.text))) =
        .error (.emptyBranch k)
    | none =>
      ∃ r, g.read s (verb ++ (Word.introducer ++ (ms.flatMap Member.text ++ closing.text))) =
          .ok r ∧
        r.query = ⟨some verb, .plain, Member.predicate ms, closing⟩ ∧
        r.defects = Member.endDefects ms := by
  have hsparse := Member.isSparse_toChain hms hd (Closing.isTail_text hc)
  have htext : (Member.toChain closing.text ms).text = ms.flatMap Member.text ++ closing.text :=
    Member.text_toChain hms
  have hends : Predicate.endDefects (Member.toChain closing.text ms) = Member.endDefects ms :=
    (Member.endsLike_toChain closing.text hms hd).endDefects_eq
  have htail := Member.tail_toChain closing.text ms
  have hall : (Member.toChain closing.text ms).tail.all isNameChar = true := by
    rw [htail]
    exact Closing.all_isNameChar_text hc
  have hcount : Keyword.count Word.introducer (Member.toChain closing.text ms).tail ≤ 1 := by
    rw [htail]
    exact Closing.count_introducer_text hs hc
  have hpredicate := read_text_of_isSparse hs hclear hsparse hcount
  rw [htext, Member.emptyBranch?_toChain hms hd] at hpredicate
  obtain ⟨hread, hsubject⟩ := read_sparse hg hv hsparse hall htext
  have hresume := congrArg Passage.next hsubject
  cases hside : Member.emptySide? ms closing.text with
  | some k =>
    rw [hside] at hpredicate
    exact hread.trans (readBehind_of_error hresume hpredicate)
  | none =>
    have hbare := Member.bare?_eq_none hside
    rw [hside] at hpredicate
    by_cases hnil : closing.text = []
    · obtain ⟨edge, hedge⟩ := exists_next_eq_stop s (htail.trans hnil)
      refine ⟨_, hread.trans (readBehind_of_criteria hresume hpredicate hedge), ?_, ?_⟩
      · rw [hsubject]
        simp only [Member.ofChain_toChain hs hms hd hbare, Closing.eq_absent_of_text_eq_nil hnil]
      · simp only [hsubject, hends, List.nil_append]
    · have hne : (Member.toChain closing.text ms).tail ≠ [] := htail.symm ▸ hnil
      have hnext := next_of_tail_ne_nil s hne
      rw [htail] at hnext
      obtain ⟨edge, hclosing⟩ := Closing.read_text hs hc hnil
      refine ⟨_, hread.trans (readBehind_of_closing hresume hpredicate hnext), ?_, ?_⟩
      · simp only [hsubject, Member.ofChain_toChain hs hms hd hbare, hclosing]
      · simp only [hsubject, hends, hclosing, List.nil_append, List.append_nil]

/-- Over the sample schema `And` behind `Or` is reported, and a list that ends in `And` is read. -/
theorem read_members_sample :
    standard.read .sample "findByTextOrAndDate".toList = .error (.emptyBranch .and) ∧
    ∃ r, standard.read .sample "findByTextOrDateAndTextAnd".toList = .ok r ∧
      r.query.predicate.map List.length = [1, 2] ∧ r.defects = [.danglingConjunction .and] := by
  let text : Criterion := ⟨some ⟨"text".toList, .string⟩, none, none, []⟩
  let date : Criterion := ⟨some ⟨"date".toList, .date⟩, none, none, []⟩
  let refused : List Member :=
    [.criterion text, .conjunction .or, .conjunction .and, .criterion date]
  let readable : List Member :=
    [.criterion text, .conjunction .or, .criterion date, .conjunction .and, .criterion text,
      .conjunction .and]
  have hclear : ∀ p ∈ Schema.sample.properties, p.IsClear := by decide +kernel
  have key : ∀ c ∈ [text, date], (∃ p ∈ Schema.sample.properties, c.property = some p) ∧
      c.residue = [] := by decide
  have hd : ∀ ms ∈ [refused, readable], ∀ c, .criterion c ∈ ms → c.IsDeclared .sample := by
    intro ms hms c hc
    have hmem : ∀ ms ∈ [refused, readable], ∀ c ∈ ms.filterMap Member.criterion?,
        c ∈ [text, date] := by decide
    have hc := key c (hmem ms hms c (List.mem_filterMap.mpr ⟨_, hc, rfl⟩))
    exact ⟨hc.1, hc.2⟩
  have hread := fun (ms : List Member) hms hmem ↦
    @read_members standard .sample "find".toList ms .absent (by decide) Schema.isSeparable_sample
      hclear (by decide) hms (hd ms hmem) (List.forall_mem_nil _)
  constructor
  · exact hread refused (by decide) (by decide)
  · obtain ⟨r, hr, hquery, hdefects⟩ := hread readable (by decide) (by decide)
    refine ⟨r, hr, ?_, hdefects⟩
    rw [hquery]
    decide

end Grammar

end QueryNames
