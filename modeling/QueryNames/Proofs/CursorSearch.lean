import Mathlib.Data.Set.Card
import QueryNames.Proofs.Carets
import QueryNames.Text.Cursor

/-!
# Searching from a cursor

A cursor tries a keyword only where a piece of the whole text starts. For keywords that begin with a
capital letter this misses nothing: such a keyword holds at no other place, so the search from a
cursor is the search through all places of the text, and the count is the number of all of them.
-/

namespace QueryNames.Cursor

open Text

variable {c d e : Cursor} {k : Text} {table : List Text}

/-- The keyword stands at the cursor and ends where a piece starts or the text ends. -/
def Holds (c : Cursor) (k : Text) : Prop :=
  k <+: c.ahead ∧ hasSeamAt c.text (c.offset + byteSize k) = true

instance (c : Cursor) (k : Text) : Decidable (c.Holds k) := inferInstanceAs (Decidable (_ ∧ _))

/-- The place lies at or behind the cursor in the same text. -/
def IsFrom (d c : Cursor) : Prop := d.text = c.text ∧ c.offset ≤ d.offset

/-- The keyword is a longest one of those of the table that hold at the cursor. -/
structure IsLongest (table : List Text) (c : Cursor) (k : Text) : Prop where
  mem : k ∈ table
  holds : c.Holds k
  longest : ∀ k' ∈ table, c.Holds k' → byteSize k' ≤ byteSize k

/-- The place is the first one from the cursor on at which a keyword of the table holds. -/
structure IsFirst (table : List Text) (c d : Cursor) : Prop where
  isFrom : d.IsFrom c
  holds : ∃ k ∈ table, d.Holds k
  first : ∀ e : Cursor, e.IsFrom c → (∃ k ∈ table, e.Holds k) → d.offset ≤ e.offset

/-- The offset of a cursor counts the bytes in front of it. -/
theorem offset_eq (c : Cursor) : c.offset = byteSize c.behind.reverse := by
  have hreverse : ∀ t : Text, byteSize t.reverse = byteSize t := by
    intro t
    induction t with
    | nil => rfl
    | cons a t ih => rw [List.reverse_cons, byteSize_append, ih, byteSize_cons, byteSize_cons,
        byteSize_nil, Nat.add_zero, Nat.add_comm]
  exact (hreverse c.behind).symm

/-- A place of a text is known by its offset. -/
theorem eq_of_offset_eq (htext : d.text = c.text) (hoffset : d.offset = c.offset) : d = c := by
  have hd : cutAt? c.offset c.text = some (d.behind.reverse, d.ahead) := by
    rw [← hoffset, ← htext, offset_eq]
    exact cutAt?_append _ _
  have hc : cutAt? c.offset c.text = some (c.behind.reverse, c.ahead) := by
    rw [offset_eq]
    exact cutAt?_append _ _
  rw [hd, Option.some.injEq, Prod.mk.injEq, List.reverse_inj] at hc
  cases c
  cases d
  exact congrArg₂ mk hc.1 hc.2

/-- A seam of the text at a cursor is told from the characters on both sides of the cursor. -/
theorem hasSeamAt_offset (c : Cursor) :
    hasSeamAt c.text c.offset = isSeam c.behind.head? c.ahead := by
  rw [offset_eq, text, hasSeamAt_append, List.getLast?_reverse]

/-- The places from one in a text on, in order. The end of the text is the last of them. -/
def places (behind : Text) : Text → List Cursor
  | [] => [⟨behind, []⟩]
  | a :: ahead => ⟨behind, a :: ahead⟩ :: places (a :: behind) ahead

/-- The places of a text from a cursor on. -/
def onward (c : Cursor) : List Cursor := places c.behind c.ahead

/-- A place is listed exactly if it is reached over the characters between. -/
theorem mem_places_iff {behind ahead : Text} :
    d ∈ places behind ahead ↔ ∃ z, ahead = z ++ d.ahead ∧ d.behind = z.reverse ++ behind := by
  induction ahead generalizing behind with
  | nil =>
    rw [places, List.mem_singleton]
    constructor
    · rintro rfl
      exact ⟨[], rfl, rfl⟩
    · rintro ⟨z, hz, hbehind⟩
      obtain ⟨rfl, hahead⟩ := List.nil_eq_append_iff.mp hz
      cases d
      exact congrArg₂ mk hbehind hahead
  | cons a ahead ih =>
    rw [places, List.mem_cons, ih]
    constructor
    · rintro (rfl | ⟨z, rfl, hbehind⟩)
      · exact ⟨[], rfl, rfl⟩
      · exact ⟨a :: z, rfl, by rw [hbehind, List.reverse_cons, List.append_assoc]; rfl⟩
    · rintro ⟨z, hz, hbehind⟩
      cases z with
      | nil =>
        cases d
        exact Or.inl (congrArg₂ mk hbehind hz.symm)
      | cons b z =>
        obtain ⟨rfl, rfl⟩ := List.cons.inj hz
        exact Or.inr ⟨z, rfl, by rw [hbehind, List.reverse_cons, List.append_assoc]; rfl⟩

/-- The places from a cursor on are those of its text at or behind it. -/
theorem mem_onward_iff : d ∈ c.onward ↔ d.IsFrom c := by
  rw [onward, mem_places_iff, IsFrom, offset_eq, offset_eq]
  constructor
  · rintro ⟨z, hahead, hbehind⟩
    rw [text, text, hahead, hbehind, List.reverse_append, List.reverse_reverse, byteSize_append]
    exact ⟨List.append_assoc _ _ _, Nat.le_add_right _ _⟩
  · rintro ⟨htext, hle⟩
    have hd : d.behind.reverse <+: c.text := ⟨d.ahead, htext⟩
    have hc : c.behind.reverse <+: c.text := ⟨c.ahead, rfl⟩
    obtain ⟨z, hz⟩ := List.prefix_of_prefix_length_le hc hd ((byteSize_le_iff hc hd).mp hle)
    refine ⟨z, ?_, ?_⟩
    · rw [text, text, ← hz, List.append_assoc] at htext
      exact (List.append_cancel_left htext).symm
    · rw [← List.reverse_reverse d.behind, ← hz, List.reverse_append, List.reverse_reverse]

/-- The places from a cursor on are listed from left to right. -/
theorem pairwise_onward (c : Cursor) : c.onward.Pairwise fun d e ↦ d.offset < e.offset := by
  have key : ∀ behind ahead : Text,
      (places behind ahead).Pairwise fun d e ↦ d.offset < e.offset := by
    intro behind ahead
    induction ahead generalizing behind with
    | nil => exact List.pairwise_singleton _ _
    | cons a ahead ih =>
      refine List.Pairwise.cons (fun e he ↦ ?_) (ih _)
      obtain ⟨z, -, hbehind⟩ := mem_places_iff.mp he
      have := Char.utf8Size_pos a
      rw [offset, offset, hbehind, byteSize_append, byteSize_cons]
      show byteSize behind < _
      omega
  exact key c.behind c.ahead

/-- A cursor gets from the start of a text behind any of its beginnings. -/
theorem advance_start (x y : Text) : (start (x ++ y)).advance (byteSize x) = ⟨x.reverse, y⟩ := by
  have key : ∀ behind : Text,
      advance.go (byteSize x) behind (x ++ y) = ⟨x.reverse ++ behind, y⟩ := by
    induction x with
    | nil =>
      intro behind
      cases y <;> rfl
    | cons a x ih =>
      intro behind
      have hpos := Char.utf8Size_pos a
      rw [List.cons_append, advance.go, byteSize_cons, if_neg (by omega), Nat.add_sub_cancel_left,
        ih, List.reverse_cons, List.append_assoc]
      rfl
  rw [start, advance, key, List.append_nil]

/-- Whether a piece of the text starts at the cursor. -/
def isPieceStart (c : Cursor) : Bool := !c.ahead.isEmpty && isSeam c.behind.head? c.ahead

/-- The cursor goes to the seams behind a place of its text one after the other. -/
theorem map_advance_seams (behind ahead : Text) :
    (seams behind.head? (byteSize behind.reverse) ahead).map
        (start (behind.reverse ++ ahead)).advance =
      (places behind ahead).filter isPieceStart := by
  induction ahead generalizing behind with
  | nil => rfl
  | cons a ahead ih =>
    have hlater := ih (a :: behind)
    rw [List.reverse_cons, List.append_assoc, List.singleton_append, byteSize_append, byteSize_cons,
      byteSize_nil, Nat.add_zero, List.head?_cons] at hlater
    rw [seams, places, List.filter_cons, ← hlater]
    have hstart : isPieceStart ⟨behind, a :: ahead⟩ = isSeam behind.head? (a :: ahead) := rfl
    rw [hstart]
    cases isSeam behind.head? (a :: ahead) with
    | false => rfl
    | true =>
      rw [if_pos rfl, if_pos rfl, List.map_cons, advance_start, List.reverse_reverse]

/-- A search stops at the places from the cursor on where a piece of the text starts. -/
theorem laterStarts_eq (c : Cursor) : c.laterStarts = c.onward.filter isPieceStart := by
  have hfront : ∀ n ∈ seams none 0 c.behind.reverse, ¬decide (c.offset ≤ n) = true := by
    intro n hn
    have := (bounds_of_mem_seams hn).2
    rw [decide_eq_true_eq, offset_eq]
    omega
  have hback : ∀ n ∈ seams c.behind.reverse.getLast? (byteSize c.behind.reverse) c.ahead,
      decide (c.offset ≤ n) = true := by
    intro n hn
    have := (bounds_of_mem_seams hn).1
    rwa [decide_eq_true_eq, offset_eq]
  rw [laterStarts, text, starts_append, List.filter_append, List.filter_eq_nil_iff.mpr hfront,
    List.filter_eq_self.mpr hback, List.nil_append, List.getLast?_reverse]
  exact map_advance_seams c.behind c.ahead

/-- A keyword is read where it holds. -/
theorem isSome_read?_iff : (c.read? k).isSome ↔ c.Holds k := by
  rw [read?, Holds]
  cases hread : k.isPrefixOf? c.ahead with
  | none =>
    refine iff_of_false Bool.false_ne_true fun h ↦ ?_
    obtain ⟨r, hr⟩ := h.1
    rw [isPrefixOf?_eq_some_iff.mpr hr.symm] at hread
    cases hread
  | some r =>
    rw [and_iff_right ⟨r, (isPrefixOf?_eq_some_iff.mp hread).symm⟩]
    cases hasSeamAt c.text (c.offset + byteSize k) <;> simp

/-- Where a keyword does not hold, it is not read. -/
theorem read?_eq_none_iff : c.read? k = none ↔ ¬c.Holds k := by
  rw [← isSome_read?_iff, Option.not_isSome_iff_eq_none]

/-- Behind a keyword the cursor has passed its characters. -/
theorem eq_of_read? (h : c.read? k = some d) :
    c.ahead = k ++ d.ahead ∧ d.behind = k.reverse ++ c.behind := by
  rw [read?] at h
  split at h
  · next r hr =>
    split at h
    · obtain rfl := Option.some.inj h
      exact ⟨isPrefixOf?_eq_some_iff.mp hr, rfl⟩
    · cases h
  · cases h

/-- A keyword that begins with a capital letter holds only where a piece of the text starts. -/
theorem Holds.isPieceStart (h : c.Holds k) (hk : k.head?.any Char.isUpper = true) :
    c.isPieceStart = true := by
  obtain ⟨⟨r, hr⟩, -⟩ := h
  cases k with
  | nil => cases hk
  | cons a k =>
    rw [Cursor.isPieceStart, ← hr, List.cons_append, isSeam_cons_of_isUpper _ hk]
    rfl

/-- A keyword that begins with a capital letter covers whole pieces of the text where it holds. -/
theorem Holds.pieces_eq (h : c.Holds k) (hk : k.head?.any Char.isUpper = true) :
    ∃ r, c.ahead = k ++ r ∧
      pieces c.text = pieces c.behind.reverse ++ pieces k ++ pieces r := by
  have hstart := h.isPieceStart hk
  obtain ⟨⟨r, hr⟩, hend⟩ := h
  have hne : k ≠ [] := by
    rintro rfl
    cases hk
  have hback : isSeam k.getLast? r = true := by
    have hseam := hasSeamAt_append (c.behind.reverse ++ k) r
    rw [List.append_assoc, hr, byteSize_append, ← offset_eq] at hseam
    rw [List.getLast?_append_of_ne_nil _ hne] at hseam
    exact hseam.symm.trans hend
  have hfront : isSeam c.behind.reverse.getLast? (k ++ r) = true := by
    rw [List.getLast?_reverse, hr]
    exact (Bool.and_eq_true_iff.mp hstart).2
  exact ⟨r, hr.symm, by rw [text, ← hr, pieces_append hfront, pieces_append hback,
    List.append_assoc]⟩

/-- Nothing is read of a table exactly if none of its keywords holds. -/
theorem readLongest?_eq_none_iff : c.readLongest? table = none ↔ ∀ k ∈ table, ¬c.Holds k := by
  rw [readLongest?, longest?_eq_none_iff]
  exact forall₂_congr fun k _ ↦ read?_eq_none_iff

private theorem isLongest_of_readLongest? (h : c.readLongest? table = some (k, d)) :
    IsLongest table c k ∧ c.read? k = some d := by
  obtain ⟨hmem, hread⟩ := of_longest? h
  have hholds := isSome_read?_iff.mp (Option.isSome_of_eq_some hread)
  refine ⟨⟨hmem, hholds, fun k' hk' hholds' ↦ ?_⟩, hread⟩
  obtain ⟨d', hread'⟩ := Option.isSome_iff_exists.mp (isSome_read?_iff.mpr hholds')
  exact (byteSize_le_iff hholds'.1 hholds.1).mpr (size_le_of_longest? h hk' hread')

/-- At most one text is the longest of a table's keywords that hold. -/
theorem IsLongest.eq {k' : Text} (h : IsLongest table c k) (h' : IsLongest table c k') :
    k = k' := by
  have hle := (byteSize_le_iff h.holds.1 h'.holds.1).mp (h'.longest k h.mem h.holds)
  have hge := (byteSize_le_iff h'.holds.1 h.holds.1).mp (h.longest k' h'.mem h'.holds)
  exact (List.prefix_of_prefix_length_le h.holds.1 h'.holds.1 hle).eq_of_length
    (Nat.le_antisymm hle hge)

/-- What is read of a table is the longest of its keywords that hold. -/
theorem readLongest?_eq_some_iff :
    c.readLongest? table = some (k, d) ↔ IsLongest table c k ∧ c.read? k = some d := by
  refine ⟨isLongest_of_readLongest?, fun ⟨h, hd⟩ ↦ ?_⟩
  cases hread : c.readLongest? table with
  | none => exact absurd h.holds (readLongest?_eq_none_iff.mp hread k h.mem)
  | some m =>
    obtain ⟨k', d'⟩ := m
    obtain ⟨h', hd'⟩ := isLongest_of_readLongest? hread
    obtain rfl := h.eq h'
    rw [Option.some.inj (hd.symm.trans hd')]

section Search

variable (htable : ∀ k ∈ table, k.head?.any Char.isUpper = true)

include htable

/-- Searching the places where pieces start is searching all places. -/
theorem search?_eq :
    c.search? table =
      c.onward.findSome? fun place ↦ (place.readLongest? table).map fun m ↦ (m.1, place) := by
  rw [search?, laterStarts_eq]
  induction c.onward with
  | nil => rfl
  | cons d places ih =>
    rw [List.filter_cons, List.findSome?_cons]
    cases hread : d.readLongest? table with
    | none =>
      rw [Option.map_none]
      split
      · rw [List.findSome?_cons, hread, Option.map_none, ih]
      · exact ih
    | some m =>
      have hlongest := (isLongest_of_readLongest? hread).1
      rw [if_pos (hlongest.holds.isPieceStart (htable m.1 hlongest.mem)),
        List.findSome?_cons, hread]
      rfl

/-- A search fails exactly if no keyword holds at any place from the cursor on. -/
theorem search?_eq_none_iff :
    c.search? table = none ↔ ∀ d : Cursor, d.IsFrom c → ∀ k ∈ table, ¬d.Holds k := by
  rw [search?_eq htable, List.findSome?_eq_none_iff]
  refine forall_congr' fun d ↦ ?_
  rw [mem_onward_iff, Option.map_eq_none_iff, readLongest?_eq_none_iff]

private theorem isFirst_of_search? (h : c.search? table = some (k, d)) :
    IsFirst table c d ∧ IsLongest table d k := by
  rw [search?_eq htable] at h
  obtain ⟨front, place, back, honward, hsome, hfront⟩ := List.findSome?_eq_some_iff.mp h
  obtain ⟨⟨k', next⟩, hread, heq⟩ := Option.map_eq_some_iff.mp hsome
  obtain ⟨rfl, rfl⟩ := Prod.mk.inj heq
  have hlongest := (isLongest_of_readLongest? hread).1
  have hfrom : place ∈ c.onward := by
    rw [honward]
    exact List.mem_append_right _ List.mem_cons_self
  have hsorted := c.pairwise_onward
  rw [honward] at hsorted
  refine ⟨⟨mem_onward_iff.mp hfrom, ⟨k', hlongest.mem, hlongest.holds⟩, ?_⟩, hlongest⟩
  rintro e he ⟨l, hl, hholds⟩
  rw [← mem_onward_iff, honward, List.mem_append, List.mem_cons] at he
  rcases he with he | rfl | he
  · have hnone := Option.map_eq_none_iff.mp (hfront e he)
    exact absurd hholds (readLongest?_eq_none_iff.mp hnone l hl)
  · exact Nat.le_refl _
  · exact (List.rel_of_pairwise_cons (List.pairwise_append.mp hsorted).2.1 he).le

/-- A search finds the first place from the cursor on at which a keyword holds, with the longest
such keyword. -/
theorem search?_eq_some_iff :
    c.search? table = some (k, d) ↔ IsFirst table c d ∧ IsLongest table d k := by
  refine ⟨isFirst_of_search? htable, fun ⟨hfirst, hlongest⟩ ↦ ?_⟩
  cases h : c.search? table with
  | none =>
    exact absurd hlongest.holds
      ((search?_eq_none_iff htable).mp h d hfirst.isFrom k hlongest.mem)
  | some m =>
    obtain ⟨k', d'⟩ := m
    obtain ⟨hfirst', hlongest'⟩ := isFirst_of_search? htable h
    have hoffset : d'.offset = d.offset := Nat.le_antisymm
      (hfirst'.first d hfirst.isFrom hfirst.holds) (hfirst.first d' hfirst'.isFrom hfirst'.holds)
    obtain rfl := eq_of_offset_eq (hfirst'.isFrom.1.trans hfirst.isFrom.1.symm) hoffset
    rw [hlongest.eq hlongest']

end Search

section Count

variable (hk : k.head?.any Char.isUpper = true)

include hk

/-- A keyword is found at the first place from the cursor on at which it holds. -/
theorem find?_eq_some_iff : c.find? k = some d ↔ IsFirst [k] c d := by
  have htable : ∀ l ∈ [k], l.head?.any Char.isUpper = true := List.forall_mem_singleton.mpr hk
  rw [find?, Option.map_eq_some_iff]
  constructor
  · rintro ⟨m, h, rfl⟩
    exact ((search?_eq_some_iff htable).mp h).1
  · intro h
    have hholds : d.Holds k := by simpa using h.holds
    have hlongest : IsLongest [k] d k :=
      ⟨List.mem_singleton.mpr rfl, hholds, fun l hl _ ↦ by rw [List.mem_singleton.mp hl]⟩
    exact ⟨(k, d), (search?_eq_some_iff htable).mpr ⟨h, hlongest⟩, rfl⟩

/-- A keyword is not found exactly if it holds at no place from the cursor on. -/
theorem find?_eq_none_iff : c.find? k = none ↔ ∀ d : Cursor, d.IsFrom c → ¬d.Holds k := by
  rw [find?, Option.map_eq_none_iff, search?_eq_none_iff (List.forall_mem_singleton.mpr hk)]
  simp only [List.forall_mem_singleton]

private theorem count_eq_countP : c.count k = c.onward.countP fun d ↦ decide (d.Holds k) := by
  rw [count, laterStarts_eq, List.countP_filter]
  refine List.countP_congr fun d _ ↦ ?_
  rw [Bool.and_eq_true, isSome_read?_iff, decide_eq_true_eq]
  exact and_iff_left_of_imp fun h ↦ h.isPieceStart hk

/-- A keyword is counted as often as there are places from the cursor on at which it holds. -/
theorem count_eq_ncard : c.count k = {d : Cursor | d.IsFrom c ∧ d.Holds k}.ncard := by
  have hset : {d : Cursor | d.IsFrom c ∧ d.Holds k} =
      ((c.onward.filter fun d ↦ decide (d.Holds k)).toFinset : Set Cursor) := by
    ext d
    rw [Finset.mem_coe, List.mem_toFinset, List.mem_filter, mem_onward_iff, decide_eq_true_eq]
    rfl
  have hnodup : c.onward.Nodup := c.pairwise_onward.imp fun {d e} hlt ↦ by
    rintro rfl
    exact Nat.lt_irrefl _ hlt
  rw [count_eq_countP hk, List.countP_eq_length_filter, hset, Set.ncard_coe_finset,
    List.toFinset_card_of_nodup (hnodup.filter _)]

/-- A keyword is counted exactly if it is found. -/
theorem count_pos_iff : 0 < c.count k ↔ (c.find? k).isSome := by
  rw [count_eq_countP hk, List.countP_pos_iff, Option.isSome_iff_ne_none, ne_eq,
    find?_eq_none_iff hk]
  simp only [mem_onward_iff, decide_eq_true_eq, not_forall, not_not, exists_prop]

end Count

/-- The search from a cursor does what its plain definition says, for every text, every place in it
and every table of keywords that begin with a capital letter. A keyword is read exactly where it
stands in front of a boundary; it then stands behind one too and covers whole pieces of the text. Of
a table the longest keyword that holds is read, and nothing exactly if none holds. The search finds
the first of all places from the cursor on at which a keyword holds, with the longest one there, and
nothing exactly if there is no such place. The count of a keyword is the number of all such places,
so it is positive exactly if the keyword is found, which it is at the first of them. -/
theorem search?_exact (c : Cursor) (table : List Text)
    (htable : ∀ k ∈ table, k.head?.any Char.isUpper = true) :
    (∀ k ∈ table, ((c.read? k).isSome ↔ c.Holds k) ∧
        ∀ d, c.read? k = some d →
          c.ahead = k ++ d.ahead ∧ d.text = c.text ∧ hasSeamAt c.text c.offset = true ∧
            pieces c.text = pieces c.behind.reverse ++ pieces k ++ pieces d.ahead) ∧
      (∀ k d, c.readLongest? table = some (k, d) ↔ IsLongest table c k ∧ c.read? k = some d) ∧
      (c.readLongest? table = none ↔ ∀ k ∈ table, ¬c.Holds k) ∧
      (∀ k d, c.search? table = some (k, d) ↔ IsFirst table c d ∧ IsLongest table d k) ∧
      (c.search? table = none ↔ ∀ d : Cursor, d.IsFrom c → ∀ k ∈ table, ¬d.Holds k) ∧
      ∀ k ∈ table, c.count k = {d : Cursor | d.IsFrom c ∧ d.Holds k}.ncard ∧
        (0 < c.count k ↔ (c.find? k).isSome) ∧ ∀ d, c.find? k = some d ↔ IsFirst [k] c d := by
  refine ⟨fun k hk ↦ ⟨isSome_read?_iff, fun d hread ↦ ?_⟩, fun k d ↦ readLongest?_eq_some_iff,
    readLongest?_eq_none_iff, fun k d ↦ search?_eq_some_iff htable, search?_eq_none_iff htable,
    fun k hk ↦ ⟨count_eq_ncard (htable k hk), count_pos_iff (htable k hk),
      fun d ↦ find?_eq_some_iff (htable k hk)⟩⟩
  have hholds := isSome_read?_iff.mp (Option.isSome_of_eq_some hread)
  obtain ⟨hahead, -⟩ := eq_of_read? hread
  obtain ⟨r, hr, hpieces⟩ := hholds.pieces_eq (htable k hk)
  obtain rfl : d.ahead = r := List.append_cancel_left (hahead.symm.trans hr)
  refine ⟨hahead, text_of_read? hread, ?_, hpieces⟩
  rw [hasSeamAt_offset]
  exact (Bool.and_eq_true_iff.mp (hholds.isPieceStart (htable k hk))).2

/-- Behind a criterion, `OrderBy` is found and not `Or`, which stands in front of it inside a
hump. -/
theorem search?_exact_sample :
    (start "TextorderByOrderByDate".toList).search? ["Or".toList, "OrderBy".toList] =
        some ("OrderBy".toList, ⟨"TextorderBy".toList.reverse, "OrderByDate".toList⟩) ∧
      IsFirst ["Or".toList, "OrderBy".toList] (start "TextorderByOrderByDate".toList)
        ⟨"TextorderBy".toList.reverse, "OrderByDate".toList⟩ := by
  have hsearch : (start "TextorderByOrderByDate".toList).search? ["Or".toList, "OrderBy".toList] =
      some ("OrderBy".toList, ⟨"TextorderBy".toList.reverse, "OrderByDate".toList⟩) := by
    decide +kernel
  obtain ⟨-, -, -, hfound, -⟩ := search?_exact (start "TextorderByOrderByDate".toList)
    ["Or".toList, "OrderBy".toList] (by decide)
  exact ⟨hsearch, ((hfound _ _).mp hsearch).1⟩

end QueryNames.Cursor
