import Mathlib.Data.List.TakeWhile
import QueryNames.Proofs.HeadWord

/-!
# Seams

A piece of a text starts exactly where no hump runs on, so the offsets at which the pieces start can
be told from neighbouring characters alone. Cutting the whole text into pieces and looking at one
place of it therefore give the same seams.
-/

namespace QueryNames

namespace Hump

/-- Whether a hump of the kind may have the character. -/
def holds : Hump → Char → Bool
  | .capitalised, c => c.isAlpha
  | .small, c => c.isLower
  | .digits, c => c.isDigit
  | .underscores, c => c == '_'

/-- A hump has the character that opens it. -/
theorem holds_of_ofHead? {kind : Hump} {c : Char} (h : ofHead? c = some kind) :
    kind.holds c = true := by
  unfold ofHead? at h
  unfold holds Char.isAlpha
  grind

/-- A hump has the characters that go on with it. -/
theorem holds_of_continues {kind : Hump} {c : Char} (h : kind.continues c = true) :
    kind.holds c = true := by
  unfold continues at h
  unfold holds Char.isAlpha
  grind

end Hump

namespace Text

/-- Behind a character of a hump there is a seam exactly where the hump does not go on. -/
theorem isSeam_of_holds {kind : Hump} {b : Char} (h : kind.holds b = true) (c : Char) (t : Text) :
    isSeam (some b) (c :: t) = !kind.continues c := by
  cases kind with
  | capitalised =>
    rw [Bool.eq_iff_iff, isSeam_iff_opens h, opens_cons, Hump.continues, Bool.not_eq_true']
  | small =>
    have hb : b.isAlpha = true := Bool.or_eq_true_iff.mpr (Or.inr h)
    rw [Bool.eq_iff_iff, isSeam_iff_opens hb, opens_cons, Hump.continues, Bool.not_eq_true']
  | digits =>
    have hb : b.isDigit = true := h
    have halpha : b.isAlpha = false := by
      unfold Char.isAlpha Char.isUpper Char.isLower
      unfold Char.isDigit at hb
      grind
    have hne : b ≠ '_' := by
      rintro rfl
      cases hb
    rw [isSeam, Hump.continues, hb, halpha, bne_iff_ne.mpr hne]
    cases hl : c.isLower with
    | false => cases c.isDigit <;> simp
    | true =>
      have hd : c.isDigit = false := by
        by_contra hd
        rw [isLower_eq_false_of_isDigit (eq_true_of_ne_false hd)] at hl
        cases hl
      simp [hd]
  | underscores =>
    obtain rfl : b = '_' := beq_iff_eq.mp h
    by_cases hc : c = '_'
    · subst hc
      rfl
    · have hcont : Hump.underscores.continues c = false := beq_eq_false_iff_ne.mpr hc
      rw [isSeam, hcont, bne_iff_ne.mpr hc, Bool.true_or]
      cases c.isLower <;> cases c.isDigit <;> rfl

/-- Behind a character that belongs to no hump there is a seam. -/
theorem isSeam_of_stray {b : Char} (h : Hump.ofHead? b = none) (t : Text) :
    isSeam (some b) t = true := by
  have hchar : isNameChar b = false := by
    rw [← Hump.isSome_ofHead?, h]
    rfl
  simp only [isNameChar, Char.isAlphanum, Bool.or_eq_false_iff, beq_eq_false_iff_ne] at hchar
  obtain ⟨⟨halpha, hdigit⟩, hne⟩ := hchar
  cases t with
  | nil => rfl
  | cons c t =>
    rw [isSeam, halpha, hdigit, bne_iff_ne.mpr hne, Bool.or_true]
    cases c.isLower <;> cases c.isDigit <;> rfl

/-- The offsets of the seams of a text that stands behind the given character and whose first place
has the given offset. The end of the text does not count. -/
def seams (before : Option Char) (offset : Nat) : Text → List Nat
  | [] => []
  | c :: t =>
    let later := seams (some c) (offset + c.utf8Size) t
    if isSeam before (c :: t) then offset :: later else later

/-- The seams of two texts in a row are those of the first and then those of the second. -/
theorem seams_append (before : Option Char) (offset : Nat) (x y : Text) :
    seams before offset (x ++ y) =
      seams before offset x ++ seams (x.getLast?.or before) (offset + byteSize x) y := by
  induction x generalizing before offset with
  | nil => rfl
  | cons c x ih =>
    have hlast : (c :: x).getLast?.or before = x.getLast?.or (some c) := by
      rw [List.getLast?_cons]
      cases x.getLast? <;> rfl
    have hseam : isSeam before (c :: (x ++ y)) = isSeam before (c :: x) := isSeam_congr before rfl
    rw [List.cons_append, seams, seams, hseam, ih, hlast, byteSize_cons, ← Nat.add_assoc]
    cases isSeam before (c :: x) <;> rfl

/-- Seams lie inside the text. -/
theorem bounds_of_mem_seams {before : Option Char} {offset n : Nat} {t : Text}
    (h : n ∈ seams before offset t) : offset ≤ n ∧ n < offset + byteSize t := by
  induction t generalizing before offset with
  | nil => cases h
  | cons c t ih =>
    have hpos := Char.utf8Size_pos c
    rw [byteSize_cons]
    rw [seams] at h
    split at h
    · rcases List.mem_cons.mp h with rfl | h
      · omega
      · have := ih h
        omega
    · have := ih h
      omega

/-- Seams are listed in ascending order. -/
theorem pairwise_seams (before : Option Char) (offset : Nat) (t : Text) :
    (seams before offset t).Pairwise (· < ·) := by
  induction t generalizing before offset with
  | nil => exact List.Pairwise.nil
  | cons c t ih =>
    rw [seams]
    split
    · refine List.Pairwise.cons (fun n hn ↦ ?_) (ih _ _)
      have hpos := Char.utf8Size_pos c
      have := (bounds_of_mem_seams hn).1
      omega
    · exact ih _ _

section Run

variable {kind : Hump} {b : Char} (hb : kind.holds b = true)

include hb

/-- Inside a hump there are no seams. -/
theorem seams_eq_nil {run : Text} (offset : Nat) (hrun : ∀ c ∈ run, kind.continues c = true) :
    seams (some b) offset run = [] := by
  induction run generalizing b offset with
  | nil => rfl
  | cons c run ih =>
    obtain ⟨hc, hrun⟩ := List.forall_mem_cons.mp hrun
    rw [seams, isSeam_of_holds hb, hc, ih (Hump.holds_of_continues hc) _ hrun]
    rfl

private theorem exists_last_holds {run : Text} (hrun : ∀ c ∈ run, kind.continues c = true) :
    ∃ d, run.getLast?.or (some b) = some d ∧ kind.holds d = true := by
  cases hlast : run.getLast? with
  | none => exact ⟨b, rfl, hb⟩
  | some d => exact ⟨d, rfl, Hump.holds_of_continues (hrun d (List.mem_of_getLast? hlast))⟩

/-- Behind a hump there is a seam. -/
theorem isSeam_dropWhile (t : Text) :
    isSeam ((t.takeWhile kind.continues).getLast?.or (some b)) (t.dropWhile kind.continues) =
      true := by
  have hrun : ∀ c ∈ t.takeWhile kind.continues, kind.continues c = true :=
    fun c hc ↦ List.mem_takeWhile_imp hc
  obtain ⟨d, hd, hholds⟩ := exists_last_holds hb hrun
  have hnot := List.head?_dropWhile_not kind.continues t
  rw [hd]
  cases hrest : t.dropWhile kind.continues with
  | nil => rfl
  | cons c rest =>
    rw [hrest] at hnot
    have hc : kind.continues c = false := by simpa using hnot
    rw [isSeam_of_holds hholds, hc]
    rfl

private theorem continues_eq_false_of_isSeam {run t : Text}
    (hrun : ∀ c ∈ run, kind.continues c = true) (h : isSeam (b :: run).getLast? t = true) :
    ∀ c ∈ t.head?, kind.continues c = false := by
  obtain ⟨d, hd, hholds⟩ := exists_last_holds hb hrun
  have hlast : (b :: run).getLast? = some d := by
    rw [← hd, List.getLast?_cons]
    cases run.getLast? <;> rfl
  cases t with
  | nil => nofun
  | cons c t =>
    rw [hlast, isSeam_of_holds hholds, Bool.not_eq_true'] at h
    rintro e he
    rwa [← Option.some.inj he]

/-- Behind the opening of a hump the first seam is where the hump ends. -/
theorem seams_of_hump (offset : Nat) (t : Text) :
    seams (some b) offset t =
      seams ((t.takeWhile kind.continues).getLast?.or (some b))
        (offset + byteSize (t.takeWhile kind.continues)) (t.dropWhile kind.continues) := by
  have hrun : ∀ c ∈ t.takeWhile kind.continues, kind.continues c = true :=
    fun c hc ↦ List.mem_takeWhile_imp hc
  calc seams (some b) offset t
      = seams (some b) offset (t.takeWhile kind.continues ++ t.dropWhile kind.continues) := by
        rw [List.takeWhile_append_dropWhile]
    _ = _ := by rw [seams_append, seams_eq_nil hb _ hrun, List.nil_append]

end Run

/-- A hump is cut off where what follows does not go on with it. -/
theorem pieces_hump {kind : Hump} {c : Char} {run rest : Text} (hkind : Hump.ofHead? c = some kind)
    (hrun : ∀ d ∈ run, kind.continues d = true)
    (hrest : ∀ d ∈ rest.head?, kind.continues d = false) :
    pieces (c :: (run ++ rest)) = .hump kind (c :: run) :: pieces rest := by
  have hstop : rest.takeWhile kind.continues = [] ∧ rest.dropWhile kind.continues = rest := by
    cases rest with
    | nil => exact ⟨rfl, rfl⟩
    | cons d rest => simp [hrest d rfl]
  rw [pieces, hkind]
  simp only [List.takeWhile_append_of_pos hrun, List.dropWhile_append_of_pos hrun, hstop,
    List.append_nil]

/-- Where no hump runs from one text into another, their pieces are those of the two in a row. -/
theorem pieces_append {x y : Text} (h : isSeam x.getLast? y = true) :
    pieces (x ++ y) = pieces x ++ pieces y := by
  have hbehind : ∀ front back : Text, isSeam (front ++ back).getLast? y = true →
      isSeam back.getLast? y = true := by
    intro front back h
    cases back with
    | nil => cases y <;> rfl
    | cons d back =>
      rw [List.getLast?_append, List.getLast?_cons, Option.some_or] at h
      rwa [List.getLast?_cons]
  fun_induction pieces x with
  | case1 => rfl
  | case2 c t hstray ih =>
    rw [List.cons_append, pieces, hstray, ih (hbehind [c] t h), List.cons_append]
  | case3 c t kind hkind ih =>
    have hrun : ∀ d ∈ t.takeWhile kind.continues, kind.continues d = true :=
      fun d hd ↦ List.mem_takeWhile_imp hd
    have hnot := List.head?_dropWhile_not kind.continues t
    generalize htake : t.takeWhile kind.continues = run at *
    generalize hdrop : t.dropWhile kind.continues = rest at *
    obtain rfl : run ++ rest = t := by rw [← htake, ← hdrop, List.takeWhile_append_dropWhile]
    have hhead : ∀ d ∈ (rest ++ y).head?, kind.continues d = false := by
      cases rest with
      | nil =>
        rw [List.append_nil] at h
        exact continues_eq_false_of_isSeam (Hump.holds_of_ofHead? hkind) hrun h
      | cons e rest =>
        intro d hd
        obtain rfl := Option.some.inj hd
        simpa using hnot
    rw [List.cons_append, List.append_assoc, pieces_hump hkind hrun hhead, List.cons_append,
      ih (hbehind (c :: run) rest h)]
/-- From a seam on the pieces of a text start at its seams. -/
theorem startsFrom_pieces {before : Option Char} {t : Text} (offset : Nat)
    (h : isSeam before t = true) :
    Piece.startsFrom offset (pieces t) = seams before offset t := by
  fun_induction pieces t generalizing before offset with
  | case1 => rfl
  | case2 c t hstray ih =>
    rw [Piece.startsFrom, seams, if_pos h, ih _ (isSeam_of_stray hstray t)]
    rfl
  | case3 c t kind hkind ih =>
    have hc := Hump.holds_of_ofHead? hkind
    rw [Piece.startsFrom, seams, if_pos h, seams_of_hump hc, ih _ (isSeam_dropWhile hc t),
      Piece.text, byteSize_cons, Nat.add_assoc]

/-- The pieces of a text start at its seams. -/
theorem starts_eq_seams (t : Text) : starts t = seams none 0 t := startsFrom_pieces 0 (by
  cases t <;> rfl)

/-- The starts are listed in ascending order, so one of them can be found by bisection. -/
theorem pairwise_starts (t : Text) : (starts t).Pairwise (· < ·) := by
  rw [starts_eq_seams]
  exact pairwise_seams none 0 t

/-- The starts of two texts in a row are seams of the first or seams behind it. -/
theorem starts_append (x y : Text) :
    starts (x ++ y) = seams none 0 x ++ seams x.getLast? (byteSize x) y := by
  rw [starts_eq_seams, seams_append, Nat.zero_add, Option.or_none]

/-- The starts from a place on are the seams behind it. -/
theorem dropWhile_starts_append (x y : Text) :
    (starts (x ++ y)).dropWhile (· < byteSize x) = seams x.getLast? (byteSize x) y := by
  have hfront : ∀ n ∈ seams none 0 x, decide (n < byteSize x) = true := by
    intro n hn
    have := (bounds_of_mem_seams hn).2
    rw [decide_eq_true_eq]
    omega
  rw [starts_append, List.dropWhile_append_of_pos hfront]
  refine List.dropWhile_eq_self_iff.mpr fun hlen ↦ ?_
  have := (bounds_of_mem_seams (List.getElem_mem hlen)).1
  rw [decide_eq_true_eq]
  omega

/-- A place of a text is the start of a piece or the end exactly if no hump runs across it. -/
theorem hasSeamAt_append (x y : Text) : hasSeamAt (x ++ y) (byteSize x) = isSeam x.getLast? y := by
  cases y with
  | nil => simp [hasSeamAt]
  | cons c y =>
    have hpos := Char.utf8Size_pos c
    have hend : (byteSize x == byteSize (x ++ c :: y)) = false := by
      rw [beq_eq_false_iff_ne, byteSize_append, byteSize_cons]
      omega
    have hfront : byteSize x ∉ seams none 0 x := by
      intro hmem
      have := (bounds_of_mem_seams hmem).2
      omega
    have hlater : byteSize x ∉ seams (some c) (byteSize x + c.utf8Size) y := by
      intro hmem
      have := (bounds_of_mem_seams hmem).1
      omega
    rw [hasSeamAt, hend, Bool.false_or, Bool.eq_iff_iff, List.contains_iff_mem, starts_append,
      List.mem_append, or_iff_right hfront, seams]
    cases isSeam x.getLast? (c :: y) <;> simp [hlater]

end Text

end QueryNames
