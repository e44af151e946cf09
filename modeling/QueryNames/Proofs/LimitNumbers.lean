import Mathlib.Tactic.Ring
import QueryNames.Proofs.LimitWords

/-!
# The number behind a limit word

A run of digits stands for the number that its places make up, however long it is. The limit is that
number where it is in bounds. Any other run of digits leaves the limit without a number and is
reported as it was written; nothing else in the reading depends on the digits.
-/

namespace QueryNames

open Text

namespace Text

/-- The value of a run of decimal digits, in which each digit counts by its place. -/
def placeValue : Text → Nat
  | [] => 0
  | c :: t => (c.toNat - '0'.toNat) * 10 ^ t.length + placeValue t

/-- Reading digits one by one shifts what has been read before them. -/
theorem ofDigitChars_eq (t : Text) (n : Nat) :
    Nat.ofDigitChars 10 t n = n * 10 ^ t.length + placeValue t := by
  induction t generalizing n with
  | nil => simp [placeValue]
  | cons c t ih =>
    rw [Nat.ofDigitChars_cons, ih, placeValue, List.length_cons]
    ring

/-- Reading digits one by one gives their value. -/
theorem numeralValue_eq_placeValue (t : Text) : numeralValue t = placeValue t := by
  rw [numeralValue, ofDigitChars_eq, Nat.zero_mul, Nat.zero_add]

/-- Leading zeros do not change the value of digits. -/
theorem placeValue_replicate_zero_append (k : Nat) (t : Text) :
    placeValue (List.replicate k '0' ++ t) = placeValue t := by
  induction k with
  | zero => rfl
  | succ k ih =>
    rw [List.replicate_succ, List.cons_append, placeValue, ih, Nat.sub_self, Nat.zero_mul,
      Nat.zero_add]

/-- Digits with leading zeros are digits. -/
theorem all_isDigit_replicate_zero_append (k : Nat) {t : Text}
    (h : ∀ c ∈ t, c.isDigit = true) : ∀ c ∈ List.replicate k '0' ++ t, c.isDigit = true := by
  intro c hc
  rcases List.mem_append.mp hc with hzero | hc
  · rw [List.eq_of_mem_replicate hzero]
    rfl
  · exact h c hc

end Text

namespace Limit

variable {ds : Text}

/-- The limit of a run of digits is decided by its value. -/
theorem ofDigits?_eq (hne : ds ≠ []) : ofDigits? ds =
    if 0 < placeValue ds ∧ placeValue ds ≤ largest then some (.explicit (placeValue ds))
    else none := by
  rw [ofDigits?, if_neg hne, numeralValue_eq_placeValue]

/-- Leading zeros do not change the limit of digits. -/
theorem ofDigits?_replicate_zero_append (k : Nat) (hne : ds ≠ []) :
    ofDigits? (List.replicate k '0' ++ ds) = ofDigits? ds := by
  rw [ofDigits?_eq hne, ofDigits?_eq (List.append_ne_nil_of_right_ne_nil _ hne),
    placeValue_replicate_zero_append]

end Limit

namespace Subject

private theorem opens_digits_append {ds t : Text} (hne : ds ≠ [])
    (hds : ∀ c ∈ ds, c.isDigit = true) : Opens (ds ++ t) := by
  refine (opens_append_of_ne_nil hne).mpr fun c hc ↦ ?_
  exact isLower_eq_false_of_isDigit (hds c (List.mem_of_mem_head? hc))

/-- Behind a limit word exactly the digits are read. -/
theorem readLimit_digits_append (w : LimitWord) {ds t : Text} (hne : ds ≠ [])
    (hds : ∀ c ∈ ds, c.isDigit = true) (ht : ∀ c ∈ t.head?, c.isDigit = false) :
    readLimit (w.word ++ (ds ++ t)) = (some ds, t) := by
  obtain ⟨hdigits, hbehind⟩ := digits_append hds ht
  rw [readLimit_word_append w (opens_digits_append hne hds), hdigits, hbehind]

/-- In what stands behind a limit with digits, neither the limit word nor the digits matter. -/
theorem exists_read_heading (s : Schema) (d : Bool) {t : Text}
    (ht : ∀ c ∈ t.head?, c.isDigit = false) :
    ∃ (property : Option Property) (others : List Defect) (next : Next),
      (∀ x, .invalidLimit x ∉ others) ∧
        ∀ (w : LimitWord) (ds : Text), ds ≠ [] → (∀ c ∈ ds, c.isDigit = true) →
          read s (w.heading d ++ (ds ++ t)) =
            ⟨⟨d, some ((Limit.ofDigits? ds).getD .implicit), property⟩,
              limitDefects (some ds) ++ others, next⟩ := by
  have hfront : ∀ (w : LimitWord) (ds : Text), ds ≠ [] → (∀ c ∈ ds, c.isDigit = true) →
      readDistinct (w.heading d ++ (ds ++ t)) = (d, w.word ++ (ds ++ t)) ∧
        readLimit (w.word ++ (ds ++ t)) = (some ds, t) :=
    fun w ds hne hds ↦ ⟨readDistinct_heading w d (opens_digits_append hne hds),
      readLimit_digits_append w hne hds ht⟩
  -- each search behind the digits sees `t` alone, so its outcome does not depend on them
  cases hby : Keyword.read? Word.introducer t with
  | some behind =>
    refine ⟨none, [], .resume behind, fun _ ↦ List.not_mem_nil, fun w ds hne hds ↦ ?_⟩
    simp only [read, hfront w ds hne hds, hby, List.append_nil, Option.map_some]
  | none =>
    cases hproperty : readProperty? s t with
    | some m =>
      refine ⟨some m.1, [], .resume m.2, fun _ ↦ List.not_mem_nil, fun w ds hne hds ↦ ?_⟩
      simp only [read, hfront w ds hne hds, hby, hproperty, List.append_nil, Option.map_some]
    | none =>
      cases hsplit : Keyword.splitAtFirst? id [Word.introducer] t with
      | some m =>
        refine ⟨none, [.unknownSubject m.1], .resume m.2.2, fun _ ↦ by simp, fun w ds hne hds ↦ ?_⟩
        simp only [read, hfront w ds hne hds, hby, hproperty, hsplit, Option.map_some]
      | none =>
        cases hhead : s.headProperty? t with
        | some m =>
          refine ⟨some m.1, [.missingBy], .stop ⟨.introducer, m.2⟩, fun _ ↦ by simp,
            fun w ds hne hds ↦ ?_⟩
          simp only [read, hfront w ds hne hds, hby, hproperty, hsplit, hhead, Option.map_some]
        | none =>
          refine ⟨none, [.missingBy], .stop ⟨.subject d true true, t⟩, fun _ ↦ by simp,
            fun w ds hne hds ↦ ?_⟩
          simp only [read, hfront w ds hne hds, hby, hproperty, hsplit, hhead, Option.map_some,
            Option.any_some, decide_eq_true hne, Option.isSome_some]

end Subject

namespace Grammar

variable {g : Grammar} {s : Schema} {verb ds t : Text} {w : LimitWord} {d : Bool} {r : Reading}

/-- Where a name with digits behind its limit word can be read, it can be read with any others, and
all but the limit and its own defect stays the same. -/
theorem exists_read_digits (hg : g.IsPrefixFree) (hv : verb ∈ g.verbs) (hne : ds ≠ [])
    (hds : ∀ c ∈ ds, c.isDigit = true) (ht : ∀ c ∈ t.head?, c.isDigit = false)
    (h : g.read s (verb ++ (w.heading d ++ (ds ++ t))) = .ok r) :
    ∃ others : List Defect, (∀ x, .invalidLimit x ∉ others) ∧
      ∀ ds' : Text, ds' ≠ [] → (∀ c ∈ ds', c.isDigit = true) →
        g.read s (verb ++ (w.heading d ++ (ds' ++ t))) =
          .ok ⟨verb ++ (w.heading d ++ (ds' ++ t)),
            { r.query with subject :=
              { r.query.subject with limit := some ((Limit.ofDigits? ds').getD .implicit) } },
            Subject.limitDefects (some ds') ++ others, r.edge⟩ := by
  have hname : t.all isNameChar = true := by
    have hall := all_isNameChar_of_read h
    simp only [List.all_append, Bool.and_eq_true] at hall
    exact hall.2.2.2
  have hread : ∀ ds' : Text, (∀ c ∈ ds', c.isDigit = true) →
      g.read s (verb ++ (w.heading d ++ (ds' ++ t))) =
        g.readBehind s (verb ++ (w.heading d ++ (ds' ++ t))) verb (w.heading d ++ (ds' ++ t)) := by
    intro ds' hds'
    have hdigits : ds'.all isNameChar = true :=
      List.all_eq_true.mpr fun c hc ↦ by simp [isNameChar, Char.isAlphanum, hds' c hc]
    rw [read_heading_append hg hv, find?_stray_eq_none]
    rw [List.all_append, hdigits, hname, Bool.and_self]
  obtain ⟨property, found, next, hfound, hsubject⟩ := Subject.exists_read_heading s d ht
  rw [hread ds hds] at h
  obtain ⟨behind, hbehind, hdefects⟩ := exists_defects_eq_append h
  refine ⟨found ++ behind, fun x hx ↦ ?_, fun ds' hne' hds' ↦ ?_⟩
  · rcases List.mem_append.mp hx with hx | hx
    · exact hfound x hx
    · exact hbehind _ hx rfl
  · -- both subjects hand on the same text, so the sections behind them are read alike
    have hvalue := subject_of_readBehind h
    rw [hread ds' hds', readBehind_of_next_eq (verb ++ (w.heading d ++ (ds ++ t))) _ (by
      rw [hsubject w ds hne hds, hsubject w ds' hne' hds']), h, Except.map, hvalue, hdefects,
      List.drop_left, hsubject w ds hne hds, hsubject w ds' hne' hds', List.append_assoc]

/-- The digits behind a limit word give the limit and its defect, and other digits that give the
same limit give the same query. -/
theorem exists_read_same_limit (hg : g.IsPrefixFree) (hv : verb ∈ g.verbs) (hne : ds ≠ [])
    (hds : ∀ c ∈ ds, c.isDigit = true) (ht : ∀ c ∈ t.head?, c.isDigit = false)
    (h : g.read s (verb ++ (w.heading d ++ (ds ++ t))) = .ok r) :
    r.query.subject.limit = some ((Limit.ofDigits? ds).getD .implicit) ∧
      ∃ others : List Defect, (∀ x, .invalidLimit x ∉ others) ∧
        r.defects = Subject.limitDefects (some ds) ++ others ∧
        ∀ ds' : Text, ds' ≠ [] → (∀ c ∈ ds', c.isDigit = true) →
          Limit.ofDigits? ds' = Limit.ofDigits? ds →
          g.read s (verb ++ (w.heading d ++ (ds' ++ t))) =
            .ok ⟨verb ++ (w.heading d ++ (ds' ++ t)), r.query,
              Subject.limitDefects (some ds') ++ others, r.edge⟩ := by
  obtain ⟨others, hothers, hread⟩ := exists_read_digits hg hv hne hds ht h
  -- the reading is one of those with any digits, namely that with its own
  have hself := Except.ok.inj (h.symm.trans (hread ds hne hds))
  have hlimit : r.query.subject.limit = some ((Limit.ofDigits? ds).getD .implicit) :=
    congrArg (·.query.subject.limit) hself
  refine ⟨hlimit, others, hothers, congrArg Reading.defects hself, fun ds' hne' hds' heq ↦ ?_⟩
  rw [hread ds' hne' hds', heq, ← hlimit]

/-- The number behind a limit word is read exactly, whatever its length. If it is in bounds it is
the limit; if not, the limit has no number and the digits as they were written are the first defect,
once. Leading zeros do not change the query, and the digits of the number that has been read give
the same reading again. -/
theorem read_limit_number (hg : g.IsPrefixFree) (hv : verb ∈ g.verbs) (hne : ds ≠ [])
    (hds : ∀ c ∈ ds, c.isDigit = true) (ht : ∀ c ∈ t.head?, c.isDigit = false)
    (h : g.read s (verb ++ (w.heading d ++ (ds ++ t))) = .ok r) :
    (0 < placeValue ds ∧ placeValue ds ≤ Limit.largest →
      r.query.subject.limit = some (.explicit (placeValue ds)) ∧
        r.query.explicitLimit? = some (placeValue ds) ∧ ∀ x, .invalidLimit x ∉ r.defects) ∧
    (¬(0 < placeValue ds ∧ placeValue ds ≤ Limit.largest) →
      r.query.subject.limit = some .implicit ∧ r.query.explicitLimit? = none ∧
        ∃ others, r.defects = .invalidLimit ds :: others ∧ ∀ x, .invalidLimit x ∉ others) ∧
    (∀ k, ∃ r', g.read s (verb ++ (w.heading d ++ (List.replicate k '0' ++ ds ++ t))) = .ok r' ∧
      r'.query = r.query) ∧
    ∀ n, r.query.explicitLimit? = some n →
      g.read s (verb ++ (w.heading d ++ (numeral n ++ t))) =
        .ok { r with source := verb ++ (w.heading d ++ (numeral n ++ t)) } := by
  obtain ⟨hlimit, others, hothers, hdefects, hsame⟩ := exists_read_same_limit hg hv hne hds ht h
  have hcount : r.query.explicitLimit? = ((Limit.ofDigits? ds).getD .implicit).count? := by
    rw [Query.explicitLimit?, hlimit, Option.bind_some]
  have hvalue := Limit.ofDigits?_eq hne
  refine ⟨fun hb ↦ ?_, fun hb ↦ ?_, fun k ↦ ?_, fun n hn ↦ ?_⟩
  · rw [if_pos hb] at hvalue
    rw [hvalue] at hlimit hcount
    rw [Subject.limitDefects, hvalue] at hdefects
    refine ⟨hlimit, hcount, fun x hx ↦ ?_⟩
    rw [hdefects] at hx
    exact hothers x hx
  · rw [if_neg hb] at hvalue
    rw [hvalue] at hlimit hcount
    rw [Subject.limitDefects, hvalue] at hdefects
    exact ⟨hlimit, hcount, others, hdefects, hothers⟩
  · exact ⟨_, hsame _ (List.append_ne_nil_of_right_ne_nil _ hne)
      (all_isDigit_replicate_zero_append k hds) (Limit.ofDigits?_replicate_zero_append k hne), rfl⟩
  · rw [hcount] at hn
    by_cases hb : 0 < placeValue ds ∧ placeValue ds ≤ Limit.largest
    · rw [if_pos hb] at hvalue
      rw [hvalue] at hn
      obtain rfl : placeValue ds = n := Option.some.inj hn
      have heq := (Limit.ofDigits?_numeral hb).trans hvalue.symm
      rw [hsame _ (numeral_ne_nil _) (all_isDigit_numeral _) heq, hdefects, Subject.limitDefects,
        Subject.limitDefects, heq, hvalue]
      rfl
    · rw [hvalue, if_neg hb] at hn
      cases hn

/-- The largest number with zeros in front of it is a limit and is written without them. -/
theorem read_limit_number_sample :
    let stem := "find".toList ++ LimitWord.first.heading true
    ∃ r, standard.read .sample (stem ++ "0004294967295TextByDateIsNull".toList) = .ok r ∧
      r.query.subject.limit = some (.explicit 4294967295) ∧
      r.query.explicitLimit? = some 4294967295 ∧ (∀ x, .invalidLimit x ∉ r.defects) ∧
      standard.read .sample (stem ++ "4294967295TextByDateIsNull".toList) =
        .ok { r with source := stem ++ "4294967295TextByDateIsNull".toList } := by
  obtain ⟨r, hread, -⟩ : ∃ r, standard.read .sample ("find".toList ++
      (LimitWord.first.heading true ++
        ("0004294967295".toList ++ "TextByDateIsNull".toList))) = .ok r ∧
      r.isValid = true := exists_read_of_any (by decide +kernel)
  have hv : "find".toList ∈ standard.verbs := by decide
  have hds : ∀ c ∈ "0004294967295".toList, c.isDigit = true := List.all_eq_true.mp (by decide)
  have ht : ∀ c ∈ "TextByDateIsNull".toList.head?, c.isDigit = false := by
    intro c hc
    obtain rfl : 'T' = c := Option.some.inj hc
    decide
  obtain ⟨hexplicit, -, -, hnumeral⟩ :=
    read_limit_number (by decide) hv (by decide) hds ht hread
  obtain ⟨hlimit, hcount, hdefects⟩ := hexplicit (by decide +kernel)
  have hvalue : placeValue "0004294967295".toList = 4294967295 := by decide +kernel
  rw [hvalue] at hlimit hcount
  exact ⟨r, hread, hlimit, hcount, hdefects, hnumeral _ hcount⟩

/-- The next number is too large, so the limit has none and the digits are reported. -/
example : (standard.read .sample "findTop4294967296ByText".toList).toOption.map
    (fun r ↦ (r.query.explicitLimit?, r.defects)) =
      some (none, [.invalidLimit "4294967296".toList]) := by
  decide +kernel

end Grammar

end QueryNames
