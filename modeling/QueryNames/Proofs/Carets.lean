import QueryNames.Checked.Caret
import QueryNames.Proofs.Extension
import QueryNames.Proofs.Identifier
import QueryNames.Proofs.Search
import QueryNames.Proofs.Seams

/-!
# Carets in front of what is left

A reader that is given the text that is left and a reader with a caret in front of that text go the
same way. Each step of a caret is taken back here to the step on the text that is left: it does not
trap, it reads the same, and it ends in front of what the other leaves.
-/

namespace QueryNames

namespace Text

private theorem maxOn?_congr {α : Type} {f g : α → Nat} {l : List α}
    (h : ∀ a ∈ l, ∀ b ∈ l, f a ≤ f b ↔ g a ≤ g b) : l.maxOn? f = l.maxOn? g := by
  induction l with
  | nil => rfl
  | cons a l ih =>
    have hl := ih fun b hb c hc ↦ h b (List.mem_cons_of_mem _ hb) c (List.mem_cons_of_mem _ hc)
    rw [List.maxOn?_cons, List.maxOn?_cons, hl]
    cases hm : l.maxOn? g with
    | none => rfl
    | some b =>
      have hb : b ∈ a :: l := List.mem_cons_of_mem _ (List.maxOn?_mem hm)
      have hab := h b hb a List.mem_cons_self
      simp only [Option.elim_some, maxOn_eq_if, hab]

/-- The longest match is the same by two measures that order what can be read alike. -/
theorem longest?_size_congr {α β : Type} {size size' : α → Nat} {read : α → Option β}
    {table : List α}
    (h : ∀ a b, (read a).isSome → (read b).isSome → (size a ≤ size b ↔ size' a ≤ size' b)) :
    longest? size read table = longest? size' read table := by
  have hread : ∀ m ∈ table.filterMap fun a ↦ (read a).map (a, ·), (read m.1).isSome := by
    intro m hm
    obtain ⟨a, -, ha⟩ := List.mem_filterMap.mp hm
    obtain ⟨b, hb, rfl⟩ := Option.map_eq_some_iff.mp ha
    exact Option.isSome_iff_exists.mpr ⟨b, hb⟩
  exact maxOn?_congr fun m hm n hn ↦ h m.1 n.1 (hread m hm) (hread n hn)

/-- Of two texts at the head of one text the one with fewer characters has fewer bytes. -/
theorem byteSize_le_iff {x y t : Text} (hx : x <+: t) (hy : y <+: t) :
    byteSize x ≤ byteSize y ↔ x.length ≤ y.length := by
  rcases List.prefix_or_prefix_of_prefix hx hy with ⟨z, rfl⟩ | ⟨z, rfl⟩
  · rw [byteSize_append, List.length_append]
    omega
  · rw [byteSize_append, List.length_append]
    have hz : byteSize z ≤ 0 ↔ z.length ≤ 0 := by
      rw [Nat.le_zero, byteSize_eq_zero_iff, Nat.le_zero, List.length_eq_zero_iff]
    omega

/-- A name character takes one byte. -/
theorem utf8Size_of_isNameChar {c : Char} (h : isNameChar c = true) : c.utf8Size = 1 := by
  rw [Char.utf8Size_eq_one_iff]
  rcases Bool.or_eq_true_iff.mp h with h | h
  · unfold Char.isAlphanum Char.isAlpha Char.isUpper Char.isLower Char.isDigit at h
    grind
  · rw [beq_iff_eq.mp h]
    decide

/-- A text of name characters has as many bytes as characters. -/
theorem byteSize_eq_length {t : Text} (h : t.all isNameChar = true) : byteSize t = t.length := by
  induction t with
  | nil => rfl
  | cons c t ih =>
    rw [List.all_cons, Bool.and_eq_true] at h
    rw [byteSize_cons, utf8Size_of_isNameChar h.1, ih h.2, List.length_cons, Nat.add_comm]

end Text

/-- The identifier of a property has as many bytes as its name. -/
theorem Property.IsNamed.byteSize_identifier {p : Property} (h : p.IsNamed) :
    Text.byteSize p.identifier = Text.byteSize p.name := by
  rw [Text.byteSize_eq_length h.all_isNameChar, Text.byteSize_eq_length h.2, p.length_identifier]

namespace Caret

open Text

variable {α : Type} {t r : Text}

/-- The caret in front of an end of a text. -/
def before (t r : Text) : Caret := ⟨t, byteSize t - byteSize r⟩

/-- In front of the second of two texts the caret is as many bytes on as the first one has. -/
theorem before_append (x r : Text) : before (x ++ r) r = ⟨x ++ r, byteSize x⟩ := by
  rw [before, byteSize_append, Nat.add_sub_cancel]

/-- A place in the text is taken. -/
theorem place_byteSize (x r : Text) : place (x ++ r) (byteSize x) = .ok (before (x ++ r) r) := by
  rw [before_append, place, if_pos (by rw [byteSize_append]; exact Nat.le_add_right _ _)]

/-- What is left lies ahead. -/
@[simp] theorem ahead_before (h : r <:+ t) : (before t r).ahead = .ok r := by
  obtain ⟨x, rfl⟩ := h
  rw [before_append, ahead, sliceFrom_append]

/-- Behind as many bytes as a text at the head has, the caret is in front of what follows it. -/
theorem advance_before {k : Text} (h : k ++ r <:+ t) :
    (before t (k ++ r)).advance (byteSize k) = .ok (before t r) := by
  obtain ⟨x, rfl⟩ := h
  have hplace := place_byteSize (x ++ k) r
  rw [byteSize_append, List.append_assoc] at hplace
  have hle : byteSize x + byteSize k ≤ byteSize (x ++ (k ++ r)) := by
    rw [byteSize_append, byteSize_append]
    omega
  rw [before_append, advance, min_eq_left hle, hplace]

/-- At the end nothing is left. -/
theorem finish_before (t r : Text) : (before t r).finish = .ok (before t []) := by
  have hplace := place_byteSize t []
  rwa [List.append_nil] at hplace

/-- The text up to a later place is what stands in front of what is left there. -/
theorem textTo_before {f : Text} (h : f ++ r <:+ t) :
    (before t (f ++ r)).textTo (before t r) = .ok f := by
  obtain ⟨x, rfl⟩ := h
  have hlater : before (x ++ (f ++ r)) r = ⟨x ++ (f ++ r), byteSize x + byteSize f⟩ := by
    have hbefore := before_append (x ++ f) r
    rwa [byteSize_append, List.append_assoc] at hbefore
  rw [before_append, hlater, textTo, slice_append]

/-- The caret is at the end exactly if nothing is left. -/
theorem isAtEnd_before (h : r <:+ t) : (before t r).isAtEnd = decide (r = []) := by
  obtain ⟨x, rfl⟩ := h
  have hle : byteSize (x ++ r) ≤ byteSize x ↔ r = [] := by
    rw [byteSize_append, ← byteSize_eq_zero_iff]
    omega
  rw [before_append, isAtEnd, decide_eq_decide.mpr hle]

/-- A keyword is read in front of what is left as it is read there. -/
theorem read?_before {k : Text} (h : r <:+ t) (hk : k ≠ []) :
    (before t r).read? k = .ok ((Keyword.read? k r).map (before t)) := by
  obtain ⟨x, rfl⟩ := h
  rw [read?, ahead_before ⟨x, rfl⟩, Trap.ok_bind]
  by_cases hpre : k <+: r
  · obtain ⟨behind, rfl⟩ := hpre
    have hseam : hasSeamAt (x ++ (k ++ behind)) (byteSize x + byteSize k) =
        isSeam k.getLast? behind := by
      have happend := hasSeamAt_append (x ++ k) behind
      rw [byteSize_append, List.append_assoc, List.getLast?_append_of_ne_nil _ hk] at happend
      exact happend
    have hadvance := advance_before (t := x ++ (k ++ behind)) (List.suffix_append x (k ++ behind))
    have hhead : k.isPrefixOf (k ++ behind) = true :=
      List.isPrefixOf_iff_prefix.mpr (List.prefix_append k behind)
    rw [hhead, Bool.true_and, Keyword.read?, isPrefixOf?_append, Option.filter_some]
    rw [hadvance, before_append]
    show (if hasSeamAt (x ++ (k ++ behind)) (byteSize x + byteSize k) then _ else _) = _
    rw [hseam]
    cases isSeam k.getLast? behind <;> rfl
  · have hnone : Keyword.read? k r = none := by
      cases hread : Keyword.read? k r with
      | none => rfl
      | some behind => exact absurd ⟨behind, (Keyword.read?_eq_some_iff.mp hread).1.symm⟩ hpre
    have hhead : k.isPrefixOf r = false := by
      rw [← Bool.not_eq_true, List.isPrefixOf_iff_prefix]
      exact hpre
    rw [hhead, hnone]
    rfl

/-- The longest keyword is read in front of what is left as it is read there. -/
theorem readLongest?_before {word : α → Text} {table : List α} (h : r <:+ t)
    (hw : ∀ k ∈ table, word k ≠ []) :
    (before t r).readLongest? word table =
      .ok ((Keyword.readLongest? word table r).map fun m ↦ (m.1, before t m.2)) := by
  have hreads : table.mapM (fun k ↦ do return (k, ← (before t r).read? (word k))) =
      .ok (table.map fun k ↦ (k, (Keyword.read? (word k) r).map (before t))) := by
    refine Trap.mapM_eq_ok fun k hk ↦ ?_
    rw [read?_before h (hw k hk)]
    rfl
  have hsize : longest? (fun k ↦ byteSize (word k)) (fun k ↦ Keyword.read? (word k) r) table =
      Keyword.readLongest? word table r := by
    refine longest?_size_congr fun k l hk hl ↦ ?_
    obtain ⟨x, hx⟩ := Option.isSome_iff_exists.mp hk
    obtain ⟨y, hy⟩ := Option.isSome_iff_exists.mp hl
    exact byteSize_le_iff ⟨x, (Keyword.read?_eq_some_iff.mp hx).1.symm⟩
      ⟨y, (Keyword.read?_eq_some_iff.mp hy).1.symm⟩
  rw [readLongest?, hreads, Trap.ok_bind, List.filterMap_map, ← hsize,
    ← longest?_map (f := before t) fun _ _ ↦ rfl]
  rfl

/-- The places where pieces start from the caret on are the seams of what is left. -/
theorem laterStarts_before (x r : Text) :
    (before (x ++ r) r).laterStarts = seams x.getLast? (byteSize x) r := by
  rw [before_append, laterStarts, dropWhile_starts_append]

/-- A word that begins with a capital letter stands at a seam wherever it stands. -/
theorem readLongest?_eq_none_of_not_seam {word : α → Text} {table : List α} {c : Char} {r : Text}
    {b : Option Char} (hw : ∀ k ∈ table, (word k).head?.any Char.isUpper = true)
    (h : isSeam b (c :: r) = false) : Keyword.readLongest? word table (c :: r) = none := by
  refine Keyword.readLongest?_eq_none_iff.mpr fun k hk ↦ ?_
  cases hread : Keyword.read? (word k) (c :: r) with
  | none => rfl
  | some behind =>
    obtain ⟨d, hd, hupper⟩ := (Option.any_eq_true _ _).mp (hw k hk)
    have htext := (Keyword.read?_eq_some_iff.mp hread).1
    have hcd : c = d := by
      cases hword : word k with
      | nil =>
        rw [hword] at hd
        cases hd
      | cons e w =>
        rw [hword] at hd htext
        rw [(List.cons.inj htext).1]
        exact Option.some.inj hd
    rw [hcd, isSeam_cons_of_isUpper r hupper] at h
    cases h

private theorem searchAt?_byteSize {word : α → Text} {table : List α}
    (hne : ∀ k ∈ table, word k ≠ []) (x r : Text) (rest : List Nat) :
    searchAt? word table (x ++ r) (byteSize x :: rest) =
      match Keyword.readLongest? word table r with
      | some (k, _) => .ok (some (k, before (x ++ r) r))
      | none => searchAt? word table (x ++ r) rest := by
  rw [searchAt?, place_byteSize, Trap.ok_bind, readLongest?_before (List.suffix_append x r) hne,
    Trap.ok_bind]
  cases Keyword.readLongest? word table r <;> rfl

/-- The search through the seams of what is left finds what the search through all its places
finds. -/
theorem search?_before {word : α → Text} {table : List α} (h : r <:+ t)
    (hw : ∀ k ∈ table, (word k).head?.any Char.isUpper = true) :
    (before t r).search? word table =
      .ok ((Keyword.splitAtFirst? word table r).map fun m ↦
        (m.2.1, before t (word m.2.1 ++ m.2.2))) := by
  obtain ⟨x, rfl⟩ := h
  have hne : ∀ k ∈ table, word k ≠ [] := by
    intro k hk hnil
    have hupper := hw k hk
    rw [hnil] at hupper
    cases hupper
  rw [search?, laterStarts_before]
  show searchAt? word table (x ++ r) (seams x.getLast? (byteSize x) r) = _
  induction r generalizing x with
  | nil => rfl
  | cons c r ih =>
    have hlater := ih (x ++ [c])
    rw [List.append_assoc, List.singleton_append, byteSize_append, List.getLast?_concat,
      byteSize_cons, byteSize_nil, Nat.add_zero] at hlater
    rw [seams, Keyword.splitAtFirst?]
    cases hread : Keyword.readLongest? word table (c :: r) with
    | some m =>
      obtain ⟨k, behind⟩ := m
      cases hseam : isSeam x.getLast? (c :: r) with
      | false =>
        rw [readLongest?_eq_none_of_not_seam hw hseam] at hread
        cases hread
      | true =>
        rw [if_pos rfl, searchAt?_byteSize hne, hread, Keyword.eq_of_readLongest? hread]
        rfl
    | none =>
      have hskip : searchAt? word table (x ++ c :: r) (byteSize x ::
            seams (some c) (byteSize x + c.utf8Size) r) =
          searchAt? word table (x ++ c :: r) (seams (some c) (byteSize x + c.utf8Size) r) := by
        rw [searchAt?_byteSize hne, hread]
      simp only [Option.map_map]
      cases isSeam x.getLast? (c :: r) with
      | false => exact hlater
      | true => exact hskip.trans hlater

/-- The places of a keyword from the caret on are those in what is left. -/
theorem count_before {keyword : Text} (h : r <:+ t)
    (hk : keyword.head?.any Char.isUpper = true) :
    (before t r).count keyword = .ok (Keyword.count keyword r) := by
  obtain ⟨x, rfl⟩ := h
  have hne : keyword ≠ [] := by
    rintro rfl
    cases hk
  have hreads : ∃ reads,
      (seams x.getLast? (byteSize x) r).mapM
          (fun offset ↦ do (← place (x ++ r) offset).read? keyword) = .ok reads ∧
        reads.countP Option.isSome = Keyword.count keyword r := by
    induction r generalizing x with
    | nil => exact ⟨[], rfl, rfl⟩
    | cons c r ih =>
      obtain ⟨reads, hreads, hcount⟩ := ih (x ++ [c])
      rw [List.append_assoc, List.singleton_append, byteSize_append, List.getLast?_concat,
        byteSize_cons, byteSize_nil, Nat.add_zero] at hreads
      rw [seams, Keyword.count]
      cases hseam : isSeam x.getLast? (c :: r) with
      | false =>
        have hnone : Keyword.read? keyword (c :: r) = none := by
          have hlongest : Keyword.readLongest? id [keyword] (c :: r) = none :=
            readLongest?_eq_none_of_not_seam (by simpa using hk) hseam
          rw [Keyword.readLongest?_singleton] at hlongest
          exact Option.map_eq_none_iff.mp hlongest
        exact ⟨reads, hreads, by rw [hcount, hnone]; simp⟩
      | true =>
        refine ⟨(Keyword.read? keyword (c :: r)).map (before (x ++ c :: r)) :: reads, ?_, ?_⟩
        · rw [if_pos rfl, List.mapM_cons, place_byteSize, Trap.ok_bind,
            read?_before (List.suffix_append x (c :: r)) hne, Trap.ok_bind, hreads]
          rfl
        · rw [List.countP_cons, hcount, Option.isSome_map]
          omega
  obtain ⟨reads, hreads, hcount⟩ := hreads
  rw [count, laterStarts_before]
  show (do return (← (seams x.getLast? (byteSize x) r).mapM
    fun offset ↦ do (← place (x ++ r) offset).read? keyword).countP Option.isSome) = _
  rw [hreads, ← hcount]
  rfl

/-- The digits ahead are read in front of what is left as they are read there. -/
theorem readDigits_before (h : r <:+ t) :
    (before t r).readDigits = .ok (digits r, before t (behindDigits r)) := by
  have hsize : byteSize (digits r) = (digits r).length := by
    refine byteSize_eq_length (List.all_eq_true.mpr fun c hc ↦ ?_)
    have hdigit : c.isDigit = true := List.mem_takeWhile_imp hc
    rw [isNameChar, Char.isAlphanum, hdigit, Bool.or_true, Bool.true_or]
  have hslice := sliceTo_append (digits r) (behindDigits r)
  have hadvance : digits r ++ behindDigits r <:+ t := by rwa [digits_append_behindDigits]
  have hadvance := advance_before hadvance
  rw [digits_append_behindDigits, hsize] at hslice hadvance
  simp only [readDigits, ahead_before h, Trap.ok_bind, hslice, hadvance]
  rfl

/-- The property ahead is read in front of what is left as it is read there. -/
theorem headProperty?_before {s : Schema} (h : r <:+ t) :
    (before t r).headProperty? s =
      .ok ((s.headProperty? r).map fun m ↦ (m.1, before t m.2)) := by
  rw [headProperty?, ahead_before h, Trap.ok_bind]
  cases hread : s.headProperty? r with
  | none => rfl
  | some m =>
    obtain ⟨p, behind⟩ := m
    obtain ⟨hp, rfl⟩ := Schema.eq_of_headProperty? hread
    have hadvance := advance_before h
    rw [(s.named p hp).byteSize_identifier] at hadvance
    show (do return some (p, ← (before t (p.identifier ++ behind)).advance (byteSize p.name))) = _
    rw [hadvance]
    rfl

end Caret

end QueryNames
