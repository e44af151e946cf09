import QueryNames.Checked.Reading
import QueryNames.Proofs.CheckedCriterion
import QueryNames.Proofs.Chain
import QueryNames.Proofs.ClosingSection

/-!
# The loops of a checked reading

A loop whose offsets go up from one round to the next and stay inside the text ends before its
rounds are used up. Each of the three loops is such a loop: one round from a place in front of what
is left moves on by a word that is not empty, and the rounds together give what the recursion
through the text that is left gives.
-/

namespace QueryNames

open Text

/-- Offsets that go up from one to the next and lie between two bounds. -/
structure Ascends (low high : Nat) (offsets : List Nat) : Prop where
  pairwise : offsets.Pairwise (· < ·)
  bounds : ∀ n ∈ offsets, low ≤ n ∧ n ≤ high

namespace Ascends

variable {low low' high : Nat} {offsets : List Nat}

/-- A single offset goes up. -/
theorem singleton (h : low ≤ high) : Ascends low high [low] where
  pairwise := List.pairwise_singleton _ _
  bounds := by
    intro n hn
    rw [List.mem_singleton.mp hn]
    exact ⟨Nat.le_refl _, h⟩

/-- Offsets go up from one that is smaller than all of them. -/
theorem cons (h : Ascends low' high offsets) (hlt : low < low') (hle : low ≤ high) :
    Ascends low high (low :: offsets) where
  pairwise := List.Pairwise.cons (fun n hn ↦ Nat.lt_of_lt_of_le hlt (h.bounds n hn).1) h.pairwise
  bounds := by
    intro n hn
    rcases List.mem_cons.mp hn with rfl | hn
    · exact ⟨Nat.le_refl _, hle⟩
    · have := h.bounds n hn
      omega

/-- Offsets that go up from a bound go up from every smaller one. -/
theorem of_le (h : Ascends low' high offsets) (hle : low ≤ low') : Ascends low high offsets where
  pairwise := h.pairwise
  bounds := fun n hn ↦ ⟨Nat.le_trans hle (h.bounds n hn).1, (h.bounds n hn).2⟩

/-- No offsets go up. -/
theorem nil : Ascends low high [] := ⟨List.Pairwise.nil, List.forall_mem_nil _⟩

/-- Between two bounds offsets go up only so often. -/
theorem length_le (h : Ascends low high offsets) : offsets.length ≤ high + 1 - low := by
  induction offsets generalizing low with
  | nil => exact Nat.zero_le _
  | cons n offsets ih =>
    obtain ⟨hn, hpairwise⟩ := List.pairwise_cons.mp h.pairwise
    have hbounds := h.bounds n List.mem_cons_self
    have hlater : Ascends (n + 1) high offsets :=
      ⟨hpairwise, fun m hm ↦ ⟨hn m hm, (h.bounds m (List.mem_cons_of_mem _ hm)).2⟩⟩
    have := ih hlater
    rw [List.length_cons]
    omega

end Ascends

namespace Turn

variable {σ ν α : Type} {round : σ → Except Trap (ν × Turn σ α)} {x y : σ} {note : ν}
  {notes : List ν} {result : α}

/-- The rounds of a loop with their notes, from a state to its end. -/
inductive Runs (round : σ → Except Trap (ν × Turn σ α)) : σ → List ν → α → Prop where
  | done {x : σ} {note : ν} {result : α} (h : round x = .ok (note, .done result)) :
    Runs round x [note] result
  | again {x y : σ} {note : ν} {notes : List ν} {result : α}
    (h : round x = .ok (note, .again y)) (hy : Runs round y notes result) :
    Runs round x (note :: notes) result

/-- A loop that is given enough rounds runs to its end. -/
theorem Runs.loop_eq (h : Runs round x notes result) {bound : Nat} (hb : notes.length ≤ bound) :
    loop round bound x = .ok (notes, result) := by
  induction h generalizing bound with
  | done h =>
    cases bound with
    | zero => exact absurd hb (Nat.not_succ_le_zero _)
    | succ bound =>
      rw [loop, h]
      rfl
  | again h _ ih =>
    cases bound with
    | zero => exact absurd hb (Nat.not_succ_le_zero _)
    | succ bound =>
      rw [List.length_cons, Nat.add_le_add_iff_right] at hb
      rw [loop, h, Trap.ok_bind]
      simp only [ih hb, Trap.ok_bind]
      rfl

/-- A loop whose offsets go up inside a text ends. -/
theorem Runs.loop_eq_of_ascends {low : Nat} {t : Text} (h : Runs round x notes result)
    (offset : ν → Nat) (ha : Ascends low (byteSize t) (notes.map offset)) :
    loop round (byteSize t + 1) x = .ok (notes, result) := by
  refine h.loop_eq ?_
  have := ha.length_le
  rw [List.length_map] at this
  omega

end Turn

namespace Caret

variable {t k r : Text}

/-- A caret in front of an end of a text lies in the text. -/
theorem offset_before_le (t r : Text) : (before t r).offset ≤ byteSize t := Nat.sub_le _ _

/-- Behind a text the caret is not further back than in front of it. -/
theorem offset_before_le_of_append (t k r : Text) :
    (before t (k ++ r)).offset ≤ (before t r).offset := by
  show byteSize t - byteSize (k ++ r) ≤ byteSize t - byteSize r
  rw [byteSize_append]
  omega

/-- Behind a text that is not empty the caret is further on than in front of it. -/
theorem offset_before_lt (h : k ++ r <:+ t) (hk : k ≠ []) :
    (before t (k ++ r)).offset < (before t r).offset := by
  obtain ⟨x, rfl⟩ := h
  have hpos : byteSize k ≠ 0 := mt (byteSize_eq_zero_iff k).mp hk
  show byteSize (x ++ (k ++ r)) - byteSize (k ++ r) < byteSize (x ++ (k ++ r)) - byteSize r
  rw [byteSize_append, byteSize_append]
  omega

end Caret

namespace CaseMarker

open Caret

variable {t r : Text}

/-- One round of the loop over the markers goes behind the marker that is left in front. -/
theorem round_before (h : r <:+ t) (defects : List Defect) :
    round (before t r, defects) =
      .ok ((before t r).offset,
        match Keyword.readLongest? allWord all r with
        | some (_, behind) => .again (before t behind, defects ++ [.repeatedAllIgnoreCase])
        | none => .done (before t r, defects)) := by
  rw [round, readLongest?_before h fun m _ ↦ m.allWord_ne_nil, Trap.ok_bind]
  cases Keyword.readLongest? allWord all r <;> rfl

/-- The loop over the markers goes behind all of them. -/
theorem exists_runs (h : r <:+ t) (defects : List Defect) :
    ∃ notes, Turn.Runs round (before t r, defects) notes
        (before t (readAll r).2, defects ++ (readAll r).1.map fun _ ↦ .repeatedAllIgnoreCase) ∧
      Ascends (before t r).offset (byteSize t) notes := by
  fun_induction readAll r generalizing defects with
  | case1 r hr =>
    refine ⟨[(before t r).offset], .done ?_, .singleton (offset_before_le t r)⟩
    rw [round_before h, hr, List.map_nil, List.append_nil]
  | case2 r m behind hr markers rest hall ih =>
    obtain rfl := Keyword.eq_of_readLongest? hr
    have hbehind : behind <:+ t := (List.suffix_append _ _).trans h
    obtain ⟨notes, hruns, hascends⟩ := ih hbehind (defects ++ [.repeatedAllIgnoreCase])
    rw [hall, List.append_assoc] at hruns
    refine ⟨_, .again ?_ hruns,
      hascends.cons (offset_before_lt h m.allWord_ne_nil) (offset_before_le _ _)⟩
    rw [round_before h, hr]

/-- The markers for all criteria are read in front of what is left as they are read there. -/
theorem readAllChecked_before (h : r <:+ t) :
    ∃ notes, readAllChecked (before t r) =
        .ok ((readAll r).1.head?, notes, before t (readAll r).2,
          (readAll r).1.tail.map fun _ ↦ .repeatedAllIgnoreCase) ∧
      Ascends 0 (byteSize t) notes := by
  rw [readAllChecked, readLongest?_before h fun m _ ↦ m.allWord_ne_nil, Trap.ok_bind]
  cases hr : Keyword.readLongest? allWord all r with
  | none =>
    rw [readAll_of_none hr]
    exact ⟨[], rfl, .nil⟩
  | some m =>
    obtain ⟨m, behind⟩ := m
    have hbehind : behind <:+ t := (Keyword.suffix_of_readLongest? hr).trans h
    obtain ⟨notes, hruns, hascends⟩ := exists_runs hbehind []
    have hloop : Turn.loop round (byteSize t + 1) (before t behind, []) = _ :=
      hruns.loop_eq_of_ascends id (by rwa [List.map_id])
    have hstart : (before t r).text = t := rfl
    rw [readAll_of_some hr]
    refine ⟨notes, ?_, hascends.of_le (Nat.zero_le _)⟩
    simp only [Option.map_some, hstart, hloop, Trap.ok_bind]
    rfl

end CaseMarker

namespace OrderItem

open Caret

variable {policy : DirectionPolicy} {s : Schema} {t r : Text} {items : List OrderItem}

/-- What has been gathered from sort keys that stand in front of what is left. -/
def gathered (policy : DirectionPolicy) (t : Text) (items : List OrderItem) (r : Text) : Gathered :=
  ⟨before t r, items, placeAfter items, items.filterMap (defect? policy)⟩

private theorem gathered_direction (p : Property) (d : Direction) (rest : Text) :
    gathered policy t (items ++ [⟨p, some d⟩]) rest =
      ⟨before t rest, items ++ [⟨p, some d⟩], .orderDirection,
        items.filterMap (defect? policy)⟩ := by
  have hnone : defect? policy ⟨p, some d⟩ = none := by cases policy <;> rfl
  rw [gathered, placeAfter, List.getLast?_concat, List.filterMap_append, List.filterMap_cons, hnone,
    List.filterMap_nil, List.append_nil]
  rfl

private theorem gathered_no_direction (p : Property) (rest : Text) :
    gathered policy t (items ++ [⟨p, none⟩]) rest =
      ⟨before t rest, items ++ [⟨p, none⟩], .orderProperty, items.filterMap (defect? policy) ++
        match policy with
        | .reject => [.missingDirection p.name]
        | .ascending => []⟩ := by
  rw [gathered, placeAfter, List.getLast?_concat, List.filterMap_append]
  cases policy <;> rfl

/-- One round of the loop over the sort keys goes behind the sort key that is left in front. -/
theorem round_before (h : r <:+ t) :
    round policy s (gathered policy t items r) =
      .ok ((before t r).offset,
        match s.headProperty? r with
        | none => .done (items, items.filterMap (defect? policy) ++ endDefects items r,
            ⟨placeAfter items, r⟩)
        | some (p, behind) =>
          match Keyword.readLongest? Direction.word Direction.all behind with
          | some (d, rest) => .again (gathered policy t (items ++ [⟨p, some d⟩]) rest)
          | none => .again (gathered policy t (items ++ [⟨p, none⟩]) behind)) := by
  have hend : (gathered policy t items r).caret.isAtEnd = decide (r = []) := isAtEnd_before h
  have hhead : (gathered policy t items r).caret.headProperty? s = _ := headProperty?_before h
  have hahead : (gathered policy t items r).caret.ahead = .ok r := ahead_before h
  rw [round, hend]
  by_cases hr : r = []
  · rw [endDefects, if_neg (not_not_intro hr), hr, Schema.headProperty?_nil]
    rfl
  · simp only [hr, decide_false, Bool.false_eq_true, if_false, hhead, Trap.ok_bind]
    cases hp : s.headProperty? r with
    | none =>
      simp only [Option.map_none, hahead, Trap.ok_bind, endDefects, if_pos hr]
      rfl
    | some m =>
      obtain ⟨p, behind⟩ := m
      have hbehind : behind <:+ t := (Schema.suffix_of_headProperty? hp).trans h
      have hlongest : (before t behind).readLongest? Direction.word Direction.all = _ :=
        readLongest?_before hbehind fun d _ ↦ Direction.word_ne_nil d
      simp only [Option.map_some, hlongest, Trap.ok_bind]
      cases Keyword.readLongest? Direction.word Direction.all behind with
      | none =>
        simp only [Option.map_none, gathered_no_direction]
        rfl
      | some m =>
        simp only [Option.map_some, gathered_direction]
        rfl

/-- The loop over the sort keys reads all of them. -/
theorem exists_runs (h : r <:+ t) :
    ∃ notes, Turn.Runs (round policy s) (gathered policy t items r) notes
        (items ++ (readAll s r).1,
          (items ++ (readAll s r).1).filterMap (defect? policy) ++
            endDefects (items ++ (readAll s r).1) (readAll s r).2,
          ⟨placeAfter (items ++ (readAll s r).1), (readAll s r).2⟩) ∧
      Ascends (before t r).offset (byteSize t) notes := by
  fun_induction readAll s r generalizing items with
  | case1 r hr =>
    refine ⟨[(before t r).offset], .done ?_, .singleton (offset_before_le t r)⟩
    rw [round_before h, hr, List.append_nil]
  | case2 r p behind hr d rest hd more left hall ih =>
    have hne := (s.named p (Schema.eq_of_headProperty? hr).1).identifier_ne_nil
    have hround : round policy s (gathered policy t items r) = _ := round_before h
    rw [hr] at hround
    simp only [hd] at hround
    obtain rfl := (Schema.eq_of_headProperty? hr).2
    obtain rfl := Keyword.eq_of_readLongest? hd
    have hrest : rest <:+ t :=
      ((List.suffix_append _ _).trans (List.suffix_append _ _)).trans h
    obtain ⟨notes, hruns, hascends⟩ := @ih (items ++ [⟨p, some d⟩]) hrest
    rw [hall, List.append_assoc, List.singleton_append] at hruns
    refine ⟨_, .again hround hruns, hascends.cons ?_ (offset_before_le _ _)⟩
    rw [← List.append_assoc] at h ⊢
    exact offset_before_lt h (List.append_ne_nil_of_left_ne_nil hne _)
  | case3 r p behind hr hd more left hall ih =>
    have hne := (s.named p (Schema.eq_of_headProperty? hr).1).identifier_ne_nil
    have hround : round policy s (gathered policy t items r) = _ := round_before h
    rw [hr] at hround
    simp only [hd] at hround
    obtain rfl := (Schema.eq_of_headProperty? hr).2
    have hbehind : behind <:+ t := (List.suffix_append _ _).trans h
    obtain ⟨notes, hruns, hascends⟩ := @ih (items ++ [⟨p, none⟩]) hbehind
    rw [hall, List.append_assoc, List.singleton_append] at hruns
    exact ⟨_, .again hround hruns, hascends.cons (offset_before_lt h hne) (offset_before_le _ _)⟩

end OrderItem

end QueryNames
