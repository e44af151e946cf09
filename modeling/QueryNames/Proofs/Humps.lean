import QueryNames.Fault
import QueryNames.Proofs.Carets
import QueryNames.Proofs.Sections

/-!
# The humps of a name

The pieces of a text are the longest matches of the patterns of the four kinds of hump, taken one
after the other, and a character that matches none is a piece of its own. So a text is made of humps
exactly if it consists of name characters, which is also what reading checks first, and a hump
starts wherever two neighbouring characters do not belong together.
-/

namespace QueryNames

open Text

namespace Hump

/-- The pattern of each kind of hump. -/
def Matches : Hump → Text → Prop
  | .capitalised, [] => False
  | .capitalised, c :: t => c.isUpper = true ∧ t.all Char.isLower
  | .small, t => t ≠ [] ∧ t.all Char.isLower
  | .digits, t => t ≠ [] ∧ t.all Char.isDigit
  | .underscores, t => t ≠ [] ∧ t.all (· == '_')

/-- No pattern matches the empty text. -/
theorem Matches.ne_nil {kind : Hump} {t : Text} (h : kind.Matches t) : t ≠ [] := by
  rintro rfl
  cases kind with
  | capitalised => exact h
  | small => exact h.1 rfl
  | digits => exact h.1 rfl
  | underscores => exact h.1 rfl

/-- No character is of two of the four kinds that names are made of. -/
theorem kinds_disjoint (c : Char) :
    (c.isUpper = true → c.isLower = false ∧ c.isDigit = false) ∧
      (c.isDigit = true → c.isLower = false) ∧
        (c = '_' → c.isUpper = false ∧ c.isLower = false ∧ c.isDigit = false) := by
  refine ⟨fun h ↦ ⟨isLower_eq_false_of_isUpper h, isDigit_eq_false_of_isUpper h⟩,
    isLower_eq_false_of_isDigit, ?_⟩
  rintro rfl
  decide

/-- A kind of hump is known by the character that opens it. -/
theorem ofHead?_eq_some_iff {kind : Hump} {c : Char} :
    ofHead? c = some kind ↔
      (kind = .capitalised ∧ c.isUpper = true) ∨ (kind = .small ∧ c.isLower = true) ∨
        (kind = .digits ∧ c.isDigit = true) ∨ (kind = .underscores ∧ c = '_') := by
  have hdisjoint := kinds_disjoint c
  unfold ofHead?
  cases kind <;> grind

/-- A pattern matches where its first character opens a hump and the others go on with it. -/
theorem matches_cons_iff {kind : Hump} {c : Char} {t : Text} :
    kind.Matches (c :: t) ↔ ofHead? c = some kind ∧ t.all kind.continues := by
  rw [ofHead?_eq_some_iff]
  cases kind <;> simp [Matches, continues]

/-- A hump goes on with name characters only. -/
theorem isNameChar_of_continues {kind : Hump} {c : Char} (h : kind.continues c = true) :
    isNameChar c = true := by
  unfold isNameChar Char.isAlphanum Char.isAlpha
  cases kind with
  | capitalised | small =>
    have hlower : c.isLower = true := h
    rw [hlower, Bool.or_true]
    rfl
  | digits =>
    have hdigit : c.isDigit = true := h
    rw [hdigit, Bool.or_true]
    rfl
  | underscores => exact Bool.or_eq_true_iff.mpr (Or.inr h)

/-- What matches a pattern consists of name characters. -/
theorem Matches.all_isNameChar {kind : Hump} {t : Text} (h : kind.Matches t) :
    t.all isNameChar = true := by
  obtain ⟨c, r, rfl⟩ := List.exists_cons_of_ne_nil h.ne_nil
  obtain ⟨hkind, hr⟩ := matches_cons_iff.mp h
  have hc : isNameChar c = true := by
    rw [← isSome_ofHead?, hkind]
    rfl
  rw [List.all_cons, hc, Bool.true_and, List.all_eq_true]
  exact fun d hd ↦ isNameChar_of_continues (List.all_eq_true.mp hr d hd)

/-- Texts that match patterns make up a text of name characters. -/
theorem all_isNameChar_flatMap {hs : List (Hump × Text)} (h : ∀ m ∈ hs, m.1.Matches m.2) :
    (hs.flatMap Prod.snd).all isNameChar = true := by
  refine List.all_eq_true.mpr fun c hc ↦ ?_
  obtain ⟨m, hm, hcm⟩ := List.mem_flatMap.mp hc
  exact List.all_eq_true.mp (h m hm).all_isNameChar c hcm

end Hump

namespace Piece

/-- A hump as a piece. -/
def ofHump (h : Hump × Text) : Piece := .hump h.1 h.2

/-- Humps are put together from their texts. -/
@[simp] theorem flatMap_text_ofHump (hs : List (Hump × Text)) :
    (hs.map ofHump).flatMap text = hs.flatMap Prod.snd := by
  rw [List.flatMap_map]
  rfl

/-- The kinds and texts of pieces are given exactly if all of them are humps. -/
theorem humpsFrom_eq_ok_iff {offset : Nat} {ps : List Piece} {hs : List (Hump × Text)} :
    humpsFrom offset ps = .ok hs ↔ ps = hs.map ofHump := by
  induction ps generalizing offset hs with
  | nil => cases hs <;> simp [humpsFrom]
  | cons p ps ih =>
    cases p with
    | stray c => cases hs <;> simp [humpsFrom, ofHump]
    | hump kind t =>
      rw [humpsFrom]
      cases hs with
      | nil => cases humpsFrom (offset + byteSize t) ps <;> simp [Except.map]
      | cons h hs =>
        rw [List.map_cons, List.cons.injEq, ofHump, hump.injEq, ← ih]
        cases humpsFrom (offset + byteSize t) ps <;> simp [Except.map, Prod.ext_iff]

/-- The first piece that is no hump is reported with the offset at which it starts. -/
theorem exists_eq_of_humpsFrom {offset : Nat} {ps : List Piece} {stray : StrayCharacter}
    (h : humpsFrom offset ps = .error stray) :
    ∃ (hs : List (Hump × Text)) (rest : List Piece),
      ps = hs.map ofHump ++ .stray stray.char :: rest ∧
      stray.offset = offset + byteSize (hs.flatMap Prod.snd) := by
  induction ps generalizing offset with
  | nil => cases h
  | cons p ps ih =>
    cases p with
    | stray c =>
      obtain rfl := Except.error.inj h
      exact ⟨[], ps, rfl, rfl⟩
    | hump kind t =>
      rw [humpsFrom] at h
      cases hrest : humpsFrom (offset + byteSize t) ps with
      | ok hs =>
        rw [hrest] at h
        cases h
      | error first =>
        rw [hrest] at h
        obtain rfl := Except.error.inj h
        obtain ⟨hs, rest, rfl, hoffset⟩ := ih hrest
        refine ⟨(kind, t) :: hs, rest, rfl, ?_⟩
        rw [hoffset, List.flatMap_cons, byteSize_append, Nat.add_assoc]

end Piece

namespace StrayCharacter

/-- The character is the first of a text that is no name character, with the number of bytes in
front of it. -/
def IsFirstOf (stray : StrayCharacter) (t : Text) : Prop :=
  ∃ before after, t = before ++ stray.char :: after ∧ before.all isNameChar = true ∧
    isNameChar stray.char = false ∧ stray.offset = byteSize before

end StrayCharacter

namespace Text

/-- The pieces are the longest matches of the four patterns, taken one after the other. A character
at which no pattern matches is a piece of its own. -/
inductive LongestMatches : Text → List Piece → Prop
  | nil : LongestMatches [] []
  | hump {kind : Hump} {h t : Text} {ps : List Piece} (hmatch : kind.Matches h)
      (longest : ∀ kind' : Hump, ∀ h', kind'.Matches h' → h' <+: h ++ t → h'.length ≤ h.length)
      (rest : LongestMatches t ps) : LongestMatches (h ++ t) (.hump kind h :: ps)
  | stray {c : Char} {t : Text} {ps : List Piece}
      (hstray : ∀ kind : Hump, ∀ h, kind.Matches h → ¬h <+: c :: t)
      (rest : LongestMatches t ps) : LongestMatches (c :: t) (.stray c :: ps)

/-- The pieces of a text are longest matches. -/
theorem longestMatches_pieces (t : Text) : LongestMatches t (pieces t) := by
  fun_induction pieces t with
  | case1 => exact .nil
  | case2 c t hnone ih =>
    refine .stray (fun kind h hmatch hpre ↦ ?_) ih
    obtain ⟨d, r, rfl⟩ := List.exists_cons_of_ne_nil hmatch.ne_nil
    obtain ⟨rfl, -⟩ := List.cons_prefix_cons.mp hpre
    rw [(Hump.matches_cons_iff.mp hmatch).1] at hnone
    cases hnone
  | case3 c t kind hkind ih =>
    have hsplit : c :: t = (c :: t.takeWhile kind.continues) ++ t.dropWhile kind.continues := by
      rw [List.cons_append, List.takeWhile_append_dropWhile]
    rw [hsplit]
    refine .hump (Hump.matches_cons_iff.mpr ⟨hkind, List.all_takeWhile⟩) ?_ ih
    intro kind' h hmatch hpre
    obtain ⟨d, r, rfl⟩ := List.exists_cons_of_ne_nil hmatch.ne_nil
    rw [← hsplit] at hpre
    obtain ⟨rfl, u, rfl⟩ := List.cons_prefix_cons.mp hpre
    obtain ⟨hkind', hr⟩ := Hump.matches_cons_iff.mp hmatch
    obtain rfl : kind = kind' := Option.some.inj (hkind.symm.trans hkind')
    rw [List.takeWhile_append_of_pos (List.all_eq_true.mp hr), List.length_cons, List.length_cons,
      List.length_append]
    omega

/-- A text is cut into longest matches in no other way than into its pieces. -/
theorem longestMatches_iff {t : Text} {ps : List Piece} :
    LongestMatches t ps ↔ ps = pieces t := by
  constructor
  · intro h
    induction h with
    | nil => rw [pieces]
    | @hump kind h t ps hmatch longest _ ih =>
      obtain ⟨c, r, rfl⟩ := List.exists_cons_of_ne_nil hmatch.ne_nil
      obtain ⟨hkind, hr⟩ := Hump.matches_cons_iff.mp hmatch
      -- with a character that goes on with it, the hump would not be the longest match
      have hrest : ∀ d ∈ t.head?, kind.continues d = false := by
        intro d hd
        obtain ⟨u, rfl⟩ := List.head?_eq_some_iff.mp hd
        by_contra hcontinues
        rw [Bool.not_eq_false] at hcontinues
        have hmore : kind.Matches (c :: (r ++ [d])) :=
          Hump.matches_cons_iff.mpr ⟨hkind, by rw [List.all_append, hr]; simpa using hcontinues⟩
        have hle := longest kind _ hmore ⟨u, by simp⟩
        simp only [List.length_cons, List.length_append, List.length_nil] at hle
        omega
      rw [List.cons_append, pieces_hump hkind (List.all_eq_true.mp hr) hrest, ← ih]
    | @stray c t ps hstray _ ih =>
      have hnone : Hump.ofHead? c = none := by
        cases hkind : Hump.ofHead? c with
        | none => rfl
        | some kind =>
          exact absurd (List.cons_prefix_cons.mpr ⟨rfl, List.nil_prefix⟩)
            (hstray kind [c] (Hump.matches_cons_iff.mpr ⟨hkind, rfl⟩))
      rw [pieces, hnone, ← ih]
  · rintro rfl
    exact longestMatches_pieces t

/-- What is left behind some of the pieces is cut into the others. -/
theorem LongestMatches.of_append {t : Text} {front back : List Piece}
    (h : LongestMatches t (front ++ back)) : LongestMatches (back.flatMap Piece.text) back := by
  induction front generalizing t with
  | nil =>
    rw [List.nil_append] at h
    obtain rfl := longestMatches_iff.mp h
    rwa [flatMap_text_pieces]
  | cons p front ih =>
    cases h with
    | hump _ _ rest => exact ih rest
    | stray _ rest => exact ih rest

variable {t : Text} {hs : List (Hump × Text)} {stray : StrayCharacter}

/-- No match at the head of a text is longer than the hump there. -/
theorem LongestMatches.length_le {ps : List Piece} {kind kind' : Hump} {h h' : Text}
    (hps : LongestMatches t (.hump kind h :: ps)) (hmatch : kind'.Matches h') (hpre : h' <+: t) :
    h'.length ≤ h.length := by
  cases hps with
  | hump _ longest _ => exact longest kind' h' hmatch hpre

/-- Every hump matches its pattern. -/
theorem LongestMatches.matches_of_mem {ps : List Piece} {kind : Hump} {h : Text}
    (hps : LongestMatches t ps) (hmem : .hump kind h ∈ ps) : kind.Matches h := by
  induction hps with
  | nil => cases hmem
  | hump hmatch _ _ ih =>
    rcases List.mem_cons.mp hmem with heq | hmem
    · obtain ⟨rfl, rfl⟩ := Piece.hump.inj heq
      exact hmatch
    · exact ih hmem
  | stray _ _ ih =>
    rcases List.mem_cons.mp hmem with heq | hmem
    · cases heq
    · exact ih hmem

/-- A piece that is no hump is no name character. -/
theorem LongestMatches.isNameChar_of_mem {ps : List Piece} {c : Char}
    (hps : LongestMatches t ps) (hmem : .stray c ∈ ps) : isNameChar c = false := by
  induction hps with
  | nil => cases hmem
  | hump _ _ _ ih =>
    rcases List.mem_cons.mp hmem with heq | hmem
    · cases heq
    · exact ih hmem
  | stray hstray _ ih =>
    rcases List.mem_cons.mp hmem with heq | hmem
    · obtain rfl := Piece.stray.inj heq
      rw [← Hump.isSome_ofHead?, Option.isSome_eq_false_iff, Option.isNone_iff_eq_none]
      by_contra hkind
      obtain ⟨kind, hkind⟩ := Option.ne_none_iff_exists'.mp hkind
      exact hstray kind [c] (Hump.matches_cons_iff.mpr ⟨hkind, rfl⟩)
        (List.cons_prefix_cons.mpr ⟨rfl, List.nil_prefix⟩)
    · exact ih hmem

/-- A text has humps exactly if all its pieces are humps. -/
theorem humps?_eq_ok_iff : humps? t = .ok hs ↔ pieces t = hs.map Piece.ofHump :=
  Piece.humpsFrom_eq_ok_iff

/-- The humps of a text make it up, and each of them matches the pattern of its kind. -/
theorem eq_of_humps? (h : humps? t = .ok hs) :
    hs.flatMap Prod.snd = t ∧ ∀ m ∈ hs, m.1.Matches m.2 := by
  have hpieces := humps?_eq_ok_iff.mp h
  constructor
  · rw [← Piece.flatMap_text_ofHump, ← hpieces, flatMap_text_pieces]
  · intro m hm
    have hmem : Piece.hump m.1 m.2 ∈ pieces t := by
      rw [hpieces]
      exact List.mem_map_of_mem hm
    exact (longestMatches_pieces t).matches_of_mem hmem

/-- No hump can be made longer by the character behind it. -/
theorem not_matches_append_of_humps? {front back : List (Hump × Text)} {kind : Hump} {h : Text}
    (hhumps : humps? t = .ok (front ++ (kind, h) :: back)) {c : Char}
    (hc : c ∈ (back.flatMap Prod.snd).head?) (kind' : Hump) : ¬kind'.Matches (h ++ [c]) := by
  intro hmatch
  have hpieces := longestMatches_pieces t
  rw [humps?_eq_ok_iff.mp hhumps, List.map_append, List.map_cons] at hpieces
  have hlater := hpieces.of_append
  obtain ⟨u, hu⟩ := List.head?_eq_some_iff.mp hc
  rw [List.flatMap_cons, Piece.flatMap_text_ofHump, hu] at hlater
  have hpre : h ++ [c] <+: h ++ c :: u := ⟨u, by rw [List.append_assoc, List.singleton_append]⟩
  have hle : (h ++ [c]).length ≤ h.length := hlater.length_le hmatch hpre
  rw [List.length_append, List.length_singleton] at hle
  omega

/-- A text fails to have humps at its first character that is no name character. -/
theorem isFirstOf_of_humps? (h : humps? t = .error stray) : stray.IsFirstOf t := by
  obtain ⟨hs, rest, hpieces, hoffset⟩ := Piece.exists_eq_of_humpsFrom h
  have hmatches := longestMatches_pieces t
  have htext := flatMap_text_pieces t
  rw [hpieces] at hmatches htext
  rw [List.flatMap_append, List.flatMap_cons, Piece.flatMap_text_ofHump] at htext
  refine ⟨hs.flatMap Prod.snd, rest.flatMap Piece.text, htext.symm, ?_, ?_, ?_⟩
  · exact Hump.all_isNameChar_flatMap fun m hm ↦
      hmatches.matches_of_mem (List.mem_append_left _ (List.mem_map_of_mem hm))
  · exact hmatches.isNameChar_of_mem (List.mem_append_right _ List.mem_cons_self)
  · rw [hoffset, Nat.zero_add]

/-- A text has humps exactly if it consists of name characters. -/
theorem exists_humps?_iff : (∃ hs, humps? t = .ok hs) ↔ t.all isNameChar = true := by
  constructor
  · rintro ⟨hs, h⟩
    obtain ⟨rfl, hmatches⟩ := eq_of_humps? h
    exact Hump.all_isNameChar_flatMap hmatches
  · intro hall
    cases h : humps? t with
    | ok hs => exact ⟨hs, rfl⟩
    | error stray =>
      obtain ⟨before, after, rfl, -, hstray, -⟩ := isFirstOf_of_humps? h
      rw [List.all_append, List.all_cons, hstray, Bool.false_and, Bool.and_false] at hall
      cases hall

/-- Between two neighbouring characters a hump ends and another starts: the second one is a capital
letter, or it is of another kind than the first. -/
def Parts (b c : Char) : Prop :=
  c.isUpper = true ∨ (c.isLower = true ∧ b.isAlpha = false) ∨
    (c.isDigit = true ∧ b.isDigit = false) ∨ (c = '_' ∧ b ≠ '_')

instance (b c : Char) : Decidable (Parts b c) := inferInstanceAs (Decidable (_ ∨ _))

/-- In front of a name character there is a seam exactly if it parts from the character before. -/
theorem isSeam_iff_parts {c : Char} (hc : isNameChar c = true) (b : Char) (t : Text) :
    isSeam (some b) (c :: t) = true ↔ Parts b c := by
  have hdisjoint := Hump.kinds_disjoint c
  unfold isNameChar Char.isAlphanum Char.isAlpha at hc
  unfold isSeam Parts
  grind

/-- Behind the end of a text there is no seam. -/
theorem hasSeamAt_eq_false {n : Nat} (h : byteSize t < n) : hasSeamAt t n = false := by
  rw [hasSeamAt, Bool.or_eq_false_iff, beq_eq_false_iff_ne, starts_eq_seams]
  refine ⟨Nat.ne_of_gt h, ?_⟩
  rw [← Bool.not_eq_true, List.contains_iff_mem]
  intro hmem
  have := (bounds_of_mem_seams hmem).2
  omega

/-- The seams of a name are its start, its end and the places where two neighbours part. -/
theorem hasSeamAt_iff (hall : t.all isNameChar = true) (n : Nat) :
    hasSeamAt t n = true ↔
      n = t.length ∨ n = 0 ∨ ∃ b c, t[n - 1]? = some b ∧ t[n]? = some c ∧ Parts b c := by
  rcases Nat.lt_or_ge t.length n with hlt | hle
  · rw [hasSeamAt_eq_false (by rwa [byteSize_eq_length hall])]
    refine iff_of_false Bool.false_ne_true ?_
    rintro (rfl | rfl | ⟨b, c, -, hc, -⟩)
    · omega
    · omega
    · rw [List.getElem?_eq_none hlt.le] at hc
      cases hc
  · have hsize : byteSize (t.take n) = n := by
      rw [byteSize_eq_length (List.all_eq_true.mpr fun c hc ↦
        List.all_eq_true.mp hall c (List.mem_of_mem_take hc)), List.length_take, min_eq_left hle]
    have hseam := hasSeamAt_append (t.take n) (t.drop n)
    rw [List.take_append_drop, hsize] at hseam
    rw [hseam]
    rcases Nat.lt_or_eq_of_le hle with hlt | rfl
    · rw [List.drop_eq_getElem_cons hlt, or_iff_right (Nat.ne_of_lt hlt)]
      cases n with
      | zero => exact iff_of_true rfl (Or.inl rfl)
      | succ n =>
        have hlast : (t.take (n + 1)).getLast? = some t[n] := by
          rw [List.getLast?_take, if_neg (Nat.succ_ne_zero n), Nat.add_sub_cancel,
            List.getElem?_eq_getElem (by omega), Option.some_or]
        have hname : isNameChar t[n + 1] = true := List.all_eq_true.mp hall _ (List.getElem_mem hlt)
        rw [hlast, isSeam_iff_parts hname, or_iff_right (Nat.succ_ne_zero n), Nat.add_sub_cancel,
          List.getElem?_eq_getElem (by omega), List.getElem?_eq_getElem hlt]
        constructor
        · intro h
          exact ⟨_, _, rfl, rfl, h⟩
        · rintro ⟨b, c, hb, hc, h⟩
          rwa [Option.some.inj hb, Option.some.inj hc]
    · rw [List.drop_length]
      exact iff_of_true (isSeam_nil _) (Or.inl rfl)

end Text

/-- Reading the criteria of a name never meets a stray character. -/
theorem Predicate.read_ne_strayCharacter (s : Schema) (t : Text) (c : Char) :
    Predicate.read s t ≠ .error (.strayCharacter c) := by
  intro h
  rw [Predicate.read] at h
  split at h
  · cases h
  · simp only at h
    split at h <;> cases h

namespace Grammar

variable {g : Grammar} {s : Schema} {t : Text} {c : Char}

/-- What stands behind a verb is never refused for a stray character. -/
theorem readBehind_ne_strayCharacter (source verb rest : Text) :
    g.readBehind s source verb rest ≠ .error (.strayCharacter c) := by
  intro h
  cases hsubject : (Subject.read s rest).next with
  | stop edge =>
    rw [readBehind_of_stop hsubject] at h
    cases h
  | resume behind =>
    cases hpredicate : Predicate.read s behind with
    | error fault =>
      rw [readBehind_of_error hsubject hpredicate] at h
      obtain rfl := Except.error.inj h
      exact Predicate.read_ne_strayCharacter s behind c hpredicate
    | ok p =>
      cases hnext : p.next with
      | stop edge =>
        rw [readBehind_of_criteria hsubject hpredicate hnext] at h
        cases h
      | resume tail =>
        rw [readBehind_of_closing hsubject hpredicate hnext] at h
        cases h

/-- Reading refuses a text for a stray character exactly if there is one, and names the first. -/
theorem read_eq_strayCharacter_iff :
    g.read s t = .error (.strayCharacter c) ↔ t.find? (fun c ↦ !isNameChar c) = some c := by
  rw [read]
  cases hfind : t.find? fun c ↦ !isNameChar c with
  | some d => simp
  | none =>
    refine iff_of_false (fun h ↦ ?_) (Option.some_ne_none c).symm
    cases hverb : Keyword.readLongest? id g.verbs t with
    | none =>
      rw [hverb] at h
      cases h
    | some m =>
      rw [hverb] at h
      exact readBehind_ne_strayCharacter _ _ _ h

/-- Only for a stray character reading refuses a text as an unusable argument. -/
theorem exists_read_invalidArgument_iff :
    (∃ m, g.read s t = .error m ∧ m.kind = .invalidArgument) ↔ ¬t.all isNameChar = true := by
  rw [Bool.not_eq_true, List.all_eq_false]
  constructor
  · rintro ⟨m, hread, hkind⟩
    cases m with
    | strayCharacter c =>
      have hfind := read_eq_strayCharacter_iff.mp hread
      exact ⟨c, List.mem_of_find?_eq_some hfind, by simpa using List.find?_some hfind⟩
    | emptyBranch c => cases hkind
    | repeatedOrder => cases hkind
  · rintro ⟨c, hc, hstray⟩
    cases hfind : t.find? fun c ↦ !isNameChar c with
    | some d => exact ⟨_, read_eq_strayCharacter_iff.mpr hfind, rfl⟩
    | none => exact absurd (List.find?_eq_none.mp hfind c hc) (by simpa using hstray)

/-- Reading names the first stray character of a text. -/
theorem read_of_isFirstOf {stray : StrayCharacter} (h : stray.IsFirstOf t) :
    g.read s t = .error (.strayCharacter stray.char) := by
  obtain ⟨before, after, rfl, hbefore, hstray, -⟩ := h
  refine read_eq_strayCharacter_iff.mpr (List.find?_eq_some_iff_append.mpr
    ⟨by rw [hstray]; rfl, before, after, rfl, fun d hd ↦ ?_⟩)
  rw [Bool.not_not]
  exact List.all_eq_true.mp hbefore d hd

/-- The pieces of a text are its longest matches of the four patterns, and no other pieces are. A
text is made of humps exactly if all its characters are name characters, and exactly then reading
does not refuse it as an unusable argument. Else the first character that is no name character is
given, with its byte offset, and reading names the same one. The humps make up the text, each
matches the pattern of its kind, and none could be made longer by the character behind it. The
places where pieces start are listed in ascending order, and those of a name are told from the
neighbouring characters alone. -/
theorem humps?_exact (g : Grammar) (s : Schema) (t : Text) :
    (∀ ps, LongestMatches t ps ↔ ps = pieces t) ∧
      ((∃ hs, humps? t = .ok hs) ↔ t.all isNameChar = true) ∧
      ((∃ m, g.read s t = .error m ∧ m.kind = .invalidArgument) ↔ ¬t.all isNameChar = true) ∧
      (∀ stray, humps? t = .error stray →
        stray.IsFirstOf t ∧ g.read s t = .error (.strayCharacter stray.char) ∧
          (Fault.unexpectedCharacter t stray).message =
            "Invalid argument: ".toList ++ ("unexpected '".toList ++ [stray.char] ++
              "' at offset ".toList ++ numeral stray.offset ++ " in '".toList ++ t ++
                "'".toList) ∧
          (Fault.malformed t (.strayCharacter stray.char)).message =
            "Invalid argument: ".toList ++ ("query name '".toList ++ t ++ "' contains '".toList ++
              [stray.char] ++ "'".toList)) ∧
      (∀ hs, humps? t = .ok hs →
        hs.flatMap Prod.snd = t ∧ (∀ m ∈ hs, m.1.Matches m.2) ∧
          ∀ front kind h back, hs = front ++ (kind, h) :: back →
            ∀ c ∈ (back.flatMap Prod.snd).head?, ∀ kind' : Hump, ¬kind'.Matches (h ++ [c])) ∧
      (starts t).Pairwise (· < ·) ∧
      (t.all isNameChar = true → ∀ n, hasSeamAt t n = true ↔
        n = t.length ∨ n = 0 ∨ ∃ b c, t[n - 1]? = some b ∧ t[n]? = some c ∧ Parts b c) := by
  refine ⟨fun ps ↦ longestMatches_iff, exists_humps?_iff, exists_read_invalidArgument_iff, ?_, ?_,
    pairwise_starts t, hasSeamAt_iff⟩
  · intro stray h
    have hfirst := isFirstOf_of_humps? h
    exact ⟨hfirst, read_of_isFirstOf hfirst, rfl, rfl⟩
  · intro hs h
    obtain ⟨htext, hmatches⟩ := eq_of_humps? h
    refine ⟨htext, hmatches, fun front kind run back heq c hc kind' ↦ ?_⟩
    rw [heq] at h
    exact not_matches_append_of_humps? h hc kind'

/-- A text whose second character is no name character, and a name whose humps are of all kinds. -/
theorem humps?_exact_sample :
    (∃ stray, humps? "a-b".toList = .error stray ∧
      standard.read .sample "a-b".toList = .error (.strayCharacter stray.char)) ∧
    (∃ hs, humps? "findTop10_Text".toList = .ok hs ∧
      hs.flatMap Prod.snd = "findTop10_Text".toList ∧
      ∀ kind : Hump, ¬kind.Matches ("find".toList ++ ['T'])) ∧
    hasSeamAt "findTop10_Text".toList 7 = true ∧ hasSeamAt "findTop10_Text".toList 8 = false := by
  have hfail : humps? "a-b".toList = .error ⟨'-', 1⟩ := by decide +kernel
  have hhumps : humps? "findTop10_Text".toList =
      .ok [(.small, "find".toList), (.capitalised, "Top".toList), (.digits, "10".toList),
        (.underscores, "_".toList), (.capitalised, "Text".toList)] := by decide +kernel
  have hname : "findTop10_Text".toList.all isNameChar = true := by decide
  obtain ⟨-, -, -, hstray, -⟩ := humps?_exact standard .sample "a-b".toList
  obtain ⟨-, -, -, -, hlong, -, hseam⟩ := humps?_exact standard .sample "findTop10_Text".toList
  obtain ⟨htext, -, hmaximal⟩ := hlong _ hhumps
  refine ⟨⟨_, hfail, (hstray _ hfail).2.1⟩, ⟨_, hhumps, htext, ?_⟩, ?_, ?_⟩
  · exact hmaximal [] _ _ _ rfl 'T' rfl
  · exact (hseam hname 7).mpr (Or.inr (Or.inr ⟨'p', '1', rfl, rfl, by decide⟩))
  · rw [← Bool.not_eq_true, hseam hname 8]
    rintro (h | h | ⟨b, c, hb, hc, h⟩)
    · cases h
    · cases h
    · obtain rfl := Option.some.inj hb
      obtain rfl := Option.some.inj hc
      revert h
      decide

end Grammar

end QueryNames
