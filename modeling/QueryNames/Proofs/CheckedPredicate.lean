import QueryNames.Proofs.CheckedLoop

/-!
# The loop over the criteria

The loop gathers criteria, branches and defects while it goes on; the chain is cut first and judged
as a whole. What the loop has gathered in front of a place is what the chain has up to there, so
both end alike: refused for the same conjunction, or with the same branches, defects and way on.
-/

namespace QueryNames

open Text

/-- The same way on, by the caret in front of what is left. -/
def Next.before (t : Text) : Next → Caret.Next
  | .stop edge => .stop edge
  | .resume rest => .resume (Caret.before t rest)

/-- The same passage, with the caret in front of what is left. -/
def Passage.before {α : Type} (t : Text) (p : Passage α) : Caret.Passage α :=
  ⟨p.value, p.defects, p.next.before t⟩

/-- Spans that start further on from one to the next, none of which ends before it starts, between
two bounds. -/
structure Spans (low high : Nat) (spans : List (Nat × Nat)) : Prop where
  ascends : Ascends low high (spans.map Prod.fst)
  bounds : ∀ n ∈ spans, n.1 ≤ n.2 ∧ n.2 ≤ high

namespace Spans

variable {low low' high stop : Nat} {spans : List (Nat × Nat)}

/-- A single span. -/
theorem singleton (h : low ≤ stop) (hle : stop ≤ high) : Spans low high [(low, stop)] where
  ascends := .singleton (Nat.le_trans h hle)
  bounds := by
    intro n hn
    rw [List.mem_singleton.mp hn]
    exact ⟨h, hle⟩

/-- A span that starts in front of all others. -/
theorem cons (hs : Spans low' high spans) (hlt : low < low') (h : low ≤ stop) (hle : stop ≤ high) :
    Spans low high ((low, stop) :: spans) where
  ascends := hs.ascends.cons hlt (Nat.le_trans h hle)
  bounds := List.forall_mem_cons.mpr ⟨⟨h, hle⟩, hs.bounds⟩

end Spans

namespace Predicate

open Caret

/-- What a chain is read as: the conjunction for which it is refused, or its criteria. -/
def judge (s : Schema) (m : Chain) : Except Malformation (Passage Predicate) :=
  match m.emptyBranch? with
  | some k => .error (.emptyBranch k)
  | none => .ok ⟨ofChain s m, m.fragments.filterMap (defect? s) ++ endDefects m, next s m⟩

/-- Reading the criteria is judging the chain that they are cut into. -/
theorem read_eq_judge (s : Schema) (t : Text) :
    read s t =
      if 1 < Keyword.count Word.orderBy t then .error .repeatedOrder else judge s (chain s t) := rfl

/-- What is left behind the text of a criterion. -/
def leftBehind : Option (Terminator × Text) → Text
  | some (w, behind) => w.word ++ behind
  | none => []

variable {s : Schema} {t r f : Text} {word : Option (Terminator × Text)}

/-- The text of a criterion and what is left behind it make up the text. -/
theorem eq_append_leftBehind (h : splitCriterion s r = (f, word)) : r = f ++ leftBehind word := by
  cases word with
  | none => rw [eq_of_splitCriterion_none h, leftBehind, List.append_nil]
  | some m => rw [eq_of_splitCriterion h, leftBehind, List.append_assoc]

private theorem endChecked_eq (h : r <:+ t) :
    ∃ head rest, r = head ++ rest ∧
      splitCriterion s r = (match Keyword.splitAtFirst? Terminator.word Terminator.all rest with
        | some (b, w, behind) => (head ++ b, some (w, behind))
        | none => (head ++ rest, none)) ∧
      endChecked s (before t r) = (do
        match ← (before t rest).search? Terminator.word Terminator.all with
        | some (w, there) => return (some (w, there), there)
        | none => return (none, ← (before t r).finish)) := by
  rw [endChecked, headProperty?_before h, Trap.ok_bind, splitCriterion]
  cases hp : s.headProperty? r with
  | none => exact ⟨[], r, rfl, rfl, rfl⟩
  | some m => exact ⟨m.1.identifier, m.2, (Schema.eq_of_headProperty? hp).2, rfl, rfl⟩

/-- The word that ends a criterion is found in front of what is left. -/
theorem endChecked_before (h : r <:+ t) (hsplit : splitCriterion s r = (f, word)) :
    endChecked s (before t r) =
      .ok (word.map fun m ↦ (m.1, before t (m.1.word ++ m.2)), before t (leftBehind word)) := by
  have hcapital : ∀ w ∈ Terminator.all, w.word.head?.any Char.isUpper = true := by decide
  obtain ⟨head, rest, rfl, hcut, hend⟩ := endChecked_eq (s := s) h
  rw [hend, search?_before ((List.suffix_append head rest).trans h) hcapital, Trap.ok_bind]
  rw [hcut] at hsplit
  cases hfirst : Keyword.splitAtFirst? Terminator.word Terminator.all rest with
  | none =>
    rw [hfirst] at hsplit
    obtain rfl := (Prod.mk.inj hsplit).2
    simp only [Option.map_none, finish_before, Trap.ok_bind]
    rfl
  | some m =>
    rw [hfirst] at hsplit
    obtain rfl := (Prod.mk.inj hsplit).2
    rfl

/-- Puts members in front of the first of some groups. -/
def putFirst {α : Type} (members : List α) (groups : List (List α)) : List (List α) :=
  if members = [] then groups else (members ++ groups.headD []) :: groups.tail

/-- Members in front of groups join the first one. -/
theorem putFirst_cons {α : Type} (members group : List α) (groups : List (List α)) :
    putFirst members (group :: groups) = (members ++ group) :: groups := by
  rw [putFirst]
  split
  · next h => rw [h, List.nil_append]
  · rfl

/-- Members are put in front of others one after the other or all at once. -/
theorem putFirst_putFirst {α : Type} (members others : List α) (groups : List (List α)) :
    putFirst members (putFirst others groups) = putFirst (members ++ others) groups := by
  by_cases h : others = []
  · rw [h, List.append_nil, putFirst.eq_1 [], if_pos rfl]
  · rw [putFirst.eq_1 others, if_neg h, putFirst_cons, putFirst,
      if_neg (List.append_ne_nil_of_right_ne_nil _ h), List.append_assoc]

/-- A criterion in front of `And` belongs to the first branch of the rest. -/
theorem branches_and {α : Type} (a : α) (later : List (α × Conjunction)) (last : Option α) :
    branches ((a, .and) :: later) last = putFirst [a] (branches later last) := by
  rw [branches]
  cases branches later last <;> rfl

/-- What the loop has gathered in front of a place is what the chain has up to there. -/
structure Gathered.Holds (s : Schema) (joined : List (Text × Conjunction)) (x : Gathered) :
    Prop where
  /-- The branches of a longer chain are those that `Or` has ended and, behind them, the ones of the
  rest, to the first of which the criteria behind the last `Or` belong. -/
  branches_eq : ∀ later last,
    branches ((joined.map fun m ↦ (Criterion.ofText s m.1, m.2)) ++ later) last =
      x.closed ++ putFirst x.branch (branches later last)
  joinedBy_eq : x.joinedBy = joined.getLast?.map Prod.snd
  defects_eq : x.defects = (joined.map Prod.fst).filterMap (defect? s)
  filled : ∀ m ∈ joined, m.1 ≠ []

namespace Gathered

variable {joined : List (Text × Conjunction)} {x : Gathered} {tail : Text}

/-- In front of the first criterion nothing has been gathered. -/
theorem holds_start (s : Schema) (c : Caret) : (start c).Holds s [] :=
  ⟨fun _ _ ↦ rfl, rfl, rfl, List.forall_mem_nil _⟩

/-- A criterion that is added brings its defect. -/
theorem defects_add (x : Gathered) (f : Text) :
    (x.add f (Criterion.ofText s f)).defects = x.defects ++ (defect? s f).toList := by
  rw [add, defect?]
  cases (Criterion.ofText s f).property with
  | none => rfl
  | some p =>
    simp only
    split <;> rfl

/-- Behind a criterion and a conjunction the loop has gathered what the chain has up to there. -/
theorem Holds.join (h : x.Holds s joined) (hf : f ≠ []) (k : Conjunction) (c : Caret) :
    ((x.add f (Criterion.ofText s f)).join k c).Holds s (joined ++ [(f, k)]) where
  branches_eq := by
    intro later last
    rw [List.map_append, List.append_assoc, h.branches_eq]
    cases k with
    | or =>
      have hbranch : x.branch ++ [Criterion.ofText s f] ≠ [] :=
        List.append_ne_nil_of_right_ne_nil _ (List.cons_ne_nil _ _)
      show x.closed ++ putFirst x.branch ([Criterion.ofText s f] :: branches later last) =
        (x.add f (Criterion.ofText s f)).predicate ++ branches later last
      rw [putFirst_cons, predicate, add, if_neg hbranch, List.append_assoc]
      rfl
    | and =>
      show x.closed ++ putFirst x.branch (branches ((Criterion.ofText s f, .and) :: later) last) =
        x.closed ++ putFirst (x.branch ++ [Criterion.ofText s f]) (branches later last)
      rw [branches_and, putFirst_putFirst]
  joinedBy_eq := by
    rw [List.getLast?_concat]
    cases k <;> rfl
  defects_eq := by
    have hdefects : ((x.add f (Criterion.ofText s f)).join k c).defects =
        (x.add f (Criterion.ofText s f)).defects := by cases k <;> rfl
    rw [hdefects, defects_add, h.defects_eq, List.map_append, List.filterMap_append]
    cases hd : defect? s f <;> simp [hd]
  filled := by
    intro m hm
    rcases List.mem_append.mp hm with hm | hm
    · exact h.filled m hm
    · rw [List.mem_singleton.mp hm]
      exact hf

private theorem emptyBranch?_of_filled {last tail : Text} (h : ∀ m ∈ joined, m.1 ≠ []) :
    Chain.emptyBranch? ⟨joined, last, tail⟩ =
      if last = [] ∧ tail ≠ [] then joined.getLast?.map Prod.snd else none := by
  have hnone : joined.find? (·.1 = []) = none :=
    List.find?_eq_none.mpr fun m hm ↦ by simpa using h m hm
  rw [Chain.emptyBranch?, hnone]
  rfl

/-- The branches of a chain that ends with a missing criterion have been gathered. -/
theorem Holds.ofChain_nil (h : x.Holds s joined) (tail : Text) :
    ofChain s ⟨joined, [], tail⟩ = x.predicate := by
  have hbranches := h.branches_eq [] none
  rw [List.append_nil] at hbranches
  rw [ofChain, if_pos rfl, hbranches, predicate]
  by_cases hb : x.branch = []
  · rw [if_pos hb, hb]
    exact List.append_nil _
  · rw [if_neg hb, branches, putFirst, if_neg hb, List.headD_nil, List.append_nil]
    rfl

/-- The branches of a chain that ends with a criterion have been gathered with it. -/
theorem Holds.ofChain_cons (h : x.Holds s joined) (hf : f ≠ []) (tail : Text) :
    ofChain s ⟨joined, f, tail⟩ = (x.add f (Criterion.ofText s f)).predicate := by
  have hbranches := h.branches_eq [] (some (Criterion.ofText s f))
  rw [List.append_nil] at hbranches
  have hbranch : x.branch ++ [Criterion.ofText s f] ≠ [] :=
    List.append_ne_nil_of_right_ne_nil _ (List.cons_ne_nil _ _)
  rw [ofChain, if_neg hf, hbranches, branches, putFirst_cons, predicate, add, if_neg hbranch]

/-- A chain that is refused in its middle is refused by the loop for the same conjunction. -/
theorem Holds.finishEmpty_join (h : x.Holds s joined) (k : Conjunction) (c : Caret)
    (later : List (Text × Conjunction)) (last tail : Text) :
    x.finishEmpty (some (.join k, c)) =
      (judge s ⟨joined ++ ([], k) :: later, last, tail⟩).map (Passage.before t) := by
  have hfind : (joined ++ ([], k) :: later).find? (·.1 = []) = some ([], k) := by
    rw [List.find?_append, List.find?_eq_none.mpr fun m hm ↦ by simpa using h.filled m hm]
    rfl
  rw [judge, Chain.emptyBranch?, hfind]
  rfl

private theorem Holds.judge_nil (h : x.Holds s joined) (ht : tail = [] ∨ x.joinedBy = none) :
    judge s ⟨joined, [], tail⟩ =
      .ok ⟨x.predicate, x.defects ++ endDefects ⟨joined, [], tail⟩,
        next s ⟨joined, [], tail⟩⟩ := by
  have hnone : Chain.emptyBranch? ⟨joined, [], tail⟩ = none := by
    rw [emptyBranch?_of_filled h.filled, ← h.joinedBy_eq]
    rcases ht with rfl | hj
    · exact if_neg fun ht ↦ ht.2 rfl
    · rw [hj, ite_self]
  have hfragments : Chain.fragments ⟨joined, [], tail⟩ = joined.map Prod.fst :=
    List.append_nil _
  rw [judge, hnone, hfragments, ← h.defects_eq, h.ofChain_nil]

private theorem Holds.judge_cons (h : x.Holds s joined) (hf : f ≠ []) (tail : Text) :
    judge s ⟨joined, f, tail⟩ =
      .ok ⟨(x.add f (Criterion.ofText s f)).predicate, (x.add f (Criterion.ofText s f)).defects,
        next s ⟨joined, f, tail⟩⟩ := by
  have hnone : Chain.emptyBranch? ⟨joined, f, tail⟩ = none := by
    rw [emptyBranch?_of_filled h.filled, if_neg fun hl ↦ hf hl.1]
  have hfragments : Chain.fragments ⟨joined, f, tail⟩ = joined.map Prod.fst ++ [f] := by
    rw [Chain.fragments, if_neg hf]
  have hdefects : [f].filterMap (defect? s) = (defect? s f).toList := by
    cases hd : defect? s f <;> simp [hd]
  rw [judge, hnone, hfragments, List.filterMap_append, ← h.defects_eq, hdefects, ← defects_add,
    h.ofChain_cons hf, endDefects, if_neg hf, List.append_nil]

/-- A chain that breaks off without a criterion ends alike in the loop. -/
theorem Holds.finishEmpty_none (h : x.Holds s joined) (t : Text) :
    x.finishEmpty none = (judge s ⟨joined, [], []⟩).map (Passage.before t) := by
  rw [h.judge_nil (Or.inl rfl), next_of_last_eq_nil s rfl rfl, endDefects, if_pos rfl,
    Chain.lastConjunction?, ← h.joinedBy_eq]
  unfold finishEmpty
  cases x.joinedBy <;> rfl

/-- A chain that something follows without a criterion in front ends alike in the loop. -/
theorem Holds.finishEmpty_word (h : x.Holds s joined) {w : Terminator} (hw : ∀ k, w ≠ .join k)
    (ht : tail ≠ []) :
    x.finishEmpty (some (w, before t tail)) =
      (judge s ⟨joined, [], tail⟩).map (Passage.before t) := by
  have hfinish : x.finishEmpty (some (w, before t tail)) =
      match x.joinedBy with
      | some k => .error (.emptyBranch k)
      | none => x.finish [.emptyPredicate] (.resume (before t tail)) := by
    unfold finishEmpty
    cases w with
    | join k => exact absurd rfl (hw k)
    | marker m => cases x.joinedBy <;> rfl
    | order => cases x.joinedBy <;> rfl
  rw [hfinish]
  cases hj : x.joinedBy with
  | some k =>
    rw [judge, emptyBranch?_of_filled h.filled, if_pos ⟨rfl, ht⟩, ← h.joinedBy_eq, hj]
    rfl
  | none =>
    rw [h.judge_nil (Or.inr hj), endDefects, if_pos rfl, Chain.lastConjunction?, ← h.joinedBy_eq,
      hj, next_of_tail_ne_nil s ht]
    rfl

/-- A chain that breaks off in a criterion ends alike in the loop. -/
theorem Holds.turn_none (h : x.Holds s joined) (hf : f ≠ []) (t : Text) :
    (x.add f (Criterion.ofText s f)).turn f (Criterion.ofText s f) none =
      .ok (.done ((judge s ⟨joined, f, []⟩).map (Passage.before t))) := by
  have hjoined : (x.add f (Criterion.ofText s f)).joinedBy =
      Chain.lastConjunction? ⟨joined, f, []⟩ := h.joinedBy_eq
  have hnext : next s ⟨joined, f, []⟩ =
      .stop (if (Criterion.ofText s f).property.isSome then
          ⟨.criterion (Criterion.ofText s f), (Criterion.ofText s f).residue⟩
        else ⟨.criterionStart (Chain.lastConjunction? ⟨joined, f, []⟩ == some .or), f⟩) := by
    rw [next, if_neg (not_not_intro rfl)]
    simp only
    split <;> rfl
  rw [h.judge_cons hf, hnext, turn, finish, List.append_nil, hjoined]
  rfl

/-- A chain that something follows behind a criterion ends alike in the loop. -/
theorem Holds.turn_word (h : x.Holds s joined) (hf : f ≠ []) {w : Terminator}
    (hw : ∀ k, w ≠ .join k) (ht : tail ≠ []) :
    (x.add f (Criterion.ofText s f)).turn f (Criterion.ofText s f) (some (w, before t tail)) =
      .ok (.done ((judge s ⟨joined, f, tail⟩).map (Passage.before t))) := by
  have hturn : ∀ (y : Gathered) (c : Criterion), y.turn f c (some (w, before t tail)) =
      .ok (.done (y.finish [] (.resume (before t tail)))) := by
    intro y c
    cases w with
    | join k => exact absurd rfl (hw k)
    | marker m => rfl
    | order => rfl
  rw [hturn, h.judge_cons hf, next_of_tail_ne_nil s ht, finish, List.append_nil]
  rfl

end Gathered

-- The word that ends a criterion, with the caret in front of it.
private def placed (t : Text) (word : Option (Terminator × Text)) : Option (Terminator × Caret) :=
  word.map fun m ↦ (m.1, before t (m.1.word ++ m.2))

private theorem round_before {x : Gathered} (h : r <:+ t) (hx : x.caret = before t r)
    (hsplit : splitCriterion s r = (f, word)) :
    round s x =
      if f = [] then .ok (((before t r).offset, (before t (leftBehind word)).offset),
        .done (x.finishEmpty (placed t word)))
      else do
        return (((before t r).offset, (before t (leftBehind word)).offset),
          ← (x.add f (Criterion.ofText s f)).turn f (Criterion.ofText s f) (placed t word)) := by
  have hr := eq_append_leftBehind hsplit
  have htext : (before t r).textTo (before t (leftBehind word)) = .ok f := by
    rw [hr] at h ⊢
    exact textTo_before h
  rw [round, hx, endChecked_before h hsplit, Trap.ok_bind]
  simp only [htext, Trap.ok_bind, Criterion.ofTextChecked_eq]
  rfl

section Run

variable {x : Gathered} {joined : List (Text × Conjunction)}

private theorem offset_le_leftBehind (hsplit : splitCriterion s r = (f, word)) (t : Text) :
    (before t r).offset ≤ (before t (leftBehind word)).offset := by
  rw [eq_append_leftBehind hsplit]
  exact offset_before_le_of_append t f _

private theorem exists_runs_of_not_join (h : r <:+ t) (hx : x.Holds s joined)
    (hc : x.caret = before t r) (hsplit : splitCriterion s r = (f, word))
    (hw : ∀ k behind, word ≠ some (.join k, behind)) :
    ∃ notes, Turn.Runs (round s) x notes
        ((judge s ⟨joined, f, leftBehind word⟩).map (Passage.before t)) ∧
      Spans (before t r).offset (byteSize t) notes := by
  have hspan := Spans.singleton (offset_le_leftBehind hsplit t) (offset_before_le t _)
  refine ⟨_, .done ?_, hspan⟩
  rw [round_before h hc hsplit]
  cases word with
  | none =>
    split
    · next hf => rw [hf, leftBehind, ← hx.finishEmpty_none t]; rfl
    · next hf => rw [placed, Option.map_none, hx.turn_none hf t]; rfl
  | some m =>
    obtain ⟨w, behind⟩ := m
    have hw : ∀ k, w ≠ .join k := by
      rintro k rfl
      exact hw k behind rfl
    have htail : w.word ++ behind ≠ [] :=
      List.append_ne_nil_of_left_ne_nil w.word_ne_nil _
    split
    · next hf => rw [hf, leftBehind, ← hx.finishEmpty_word hw htail]; rfl
    · next hf => rw [placed, Option.map_some, hx.turn_word hf hw htail]; rfl

/-- The loop over the criteria ends as the chain does that is cut from the rest. -/
theorem exists_runs (h : r <:+ t) (hx : x.Holds s joined) (hc : x.caret = before t r) :
    ∃ notes, Turn.Runs (round s) x notes
        ((judge s ⟨joined ++ (chain s r).joined, (chain s r).last, (chain s r).tail⟩).map
          (Passage.before t)) ∧
      Spans (before t r).offset (byteSize t) notes := by
  induction hn : r.length using Nat.strongRecOn generalizing r x joined with
  | ind n ih =>
    rcases hsplit : splitCriterion s r with ⟨f, word⟩
    by_cases hw : ∀ k behind, word ≠ some (.join k, behind)
    · have hchain : chain s r = ⟨[], f, leftBehind word⟩ := by
        cases word with
        | none => exact chain_of_none hsplit
        | some m => exact chain_of_word hsplit fun k hk ↦ hw k m.2 (by rw [← hk])
      rw [hchain, List.append_nil]
      exact exists_runs_of_not_join h hx hc hsplit hw
    · simp only [not_forall, not_not] at hw
      obtain ⟨k, behind, rfl⟩ := hw
      have hround := round_before h hc hsplit
      have hle := offset_le_leftBehind hsplit t
      rw [chain_of_join hsplit]
      by_cases hf : f = []
      · refine ⟨_, .done ?_, .singleton hle (offset_before_le t _)⟩
        rw [hround, if_pos hf, hf]
        exact congrArg (fun y ↦ Except.ok (_, Turn.done y))
          (hx.finishEmpty_join k (before t (k.word ++ behind)) _ _ _)
      · have hr : r = f ++ (k.word ++ behind) := eq_append_leftBehind hsplit
        have hword : k.word ≠ [] := Terminator.word_ne_nil (.join k)
        have hleft : k.word ++ behind <:+ t := by
          rw [hr] at h
          exact (List.suffix_append f _).trans h
        have hlength : behind.length < n := by
          have := List.length_pos_iff.mpr hword
          rw [← hn, hr, List.length_append, List.length_append]
          omega
        have hlt : (before t r).offset < (before t behind).offset :=
          Nat.lt_of_le_of_lt hle (offset_before_lt hleft hword)
        obtain ⟨notes, hruns, hspans⟩ := ih _ hlength ((List.suffix_append _ _).trans hleft)
          (hx.join hf k (before t behind)) (by cases k <;> rfl) rfl
        rw [List.append_assoc, List.singleton_append] at hruns
        refine ⟨_, .again ?_ hruns, hspans.cons hlt hle (offset_before_le t _)⟩
        rw [hround, if_neg hf, placed, Option.map_some, Gathered.turn, Terminator.word,
          advance_before hleft]
        rfl

end Run

/-- The criteria are read in front of what is left as they are read there, and the spans of their
texts go up. -/
theorem readChecked_before (h : r <:+ t) :
    ∃ notes, readChecked s (before t r) =
        .ok (notes, (read s r).map (Passage.before t)) ∧
      Spans 0 (byteSize t) notes := by
  have hcapital : Word.orderBy.head?.any Char.isUpper = true := by decide
  rw [readChecked, count_before h hcapital, Trap.ok_bind, read_eq_judge]
  by_cases hcount : 1 < Keyword.count Word.orderBy r
  · rw [if_pos hcount, if_pos hcount]
    exact ⟨[], rfl, .nil, List.forall_mem_nil _⟩
  · rw [if_neg hcount, if_neg hcount]
    obtain ⟨notes, hruns, hspans⟩ := exists_runs h (Gathered.holds_start s (before t r)) rfl
    refine ⟨notes, hruns.loop_eq_of_ascends Prod.fst hspans.ascends,
      hspans.ascends.of_le (Nat.zero_le _), hspans.bounds⟩

end Predicate

end QueryNames
