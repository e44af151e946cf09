import QueryNames.Proofs.Continuations
import QueryNames.Proofs.HiddenSubject
import QueryNames.Proofs.Typing

/-!
# The words that open a limit

Behind `Top` or `First` reading sees only the text that is left, never how much has been read before
it. So either word leads to the same reading of what follows and to the same completion.
-/

namespace QueryNames

open Text

namespace LimitWord

/-- The words up to the limit word. -/
def heading (w : LimitWord) (distinct : Bool) : Text :=
  (if distinct then Word.distinct else []) ++ w.word

/-- Words up to a limit word consist of name characters. -/
theorem all_isNameChar_heading (w : LimitWord) (d : Bool) :
    (w.heading d).all isNameChar = true := by
  cases w <;> cases d <;> decide

/-- Words up to a limit word open, whatever follows them. -/
theorem opens_heading_append (w : LimitWord) (d : Bool) (t : Text) : Opens (w.heading d ++ t) := by
  have key : w.heading d ≠ [] ∧ Opens (w.heading d) := by cases w <;> cases d <;> decide
  exact (opens_append_of_ne_nil key.1).mpr key.2

/-- No digit stands at the head of words up to a limit word. -/
theorem isDigit_head_heading_append (w : LimitWord) (d : Bool) (t : Text) :
    ∀ c ∈ (w.heading d ++ t).head?, c.isDigit = false := by
  have key : w.heading d ≠ [] ∧ (w.heading d).head?.any Char.isDigit = false := by
    cases w <;> cases d <;> decide
  intro c hc
  rw [List.head?_append_of_ne_nil _ key.1] at hc
  have hdigit := key.2
  rwa [hc, Option.any_some] at hdigit

end LimitWord

namespace Subject

variable {s : Schema} {t : Text}

/-- The words up to a limit word are read in front of any text that opens. -/
theorem readDistinct_heading (w : LimitWord) (d : Bool) (ht : Opens t) :
    readDistinct (w.heading d ++ t) = (d, w.word ++ t) := by
  rw [LimitWord.heading, List.append_assoc]
  refine readDistinct_word_append (opens_append_of_isCapitalWord w.isCapitalWord_word t) fun _ ↦ ?_
  rw [w.headWord_word_append ht]
  exact w.word_ne_distinct

/-- Behind the words up to a limit word stands what follows the digits. -/
theorem behindFront_heading (w : LimitWord) (d : Bool) (ht : Opens t) :
    behindFront (w.heading d ++ t) = behindDigits t := by
  rw [behindFront, readDistinct_heading w d ht, readLimit_word_append w ht]

/-- Which word opens the limit does not matter for what is asked for. -/
theorem read_heading_congr (s : Schema) (w w' : LimitWord) (d : Bool) (ht : Opens t) :
    read s (w.heading d ++ t) = read s (w'.heading d ++ t) := by
  simp only [read, readDistinct_heading _ d ht, readLimit_word_append _ ht]

end Subject

namespace Grammar

variable {g : Grammar} {s : Schema} {verb rest rest' source source' t : Text} {r : Reading}

/-- A name that begins with a verb and a limit is malformed where what follows holds a stray
character, and is read behind the verb otherwise. -/
theorem read_heading_append (hg : g.IsPrefixFree) (hv : verb ∈ g.verbs) (w : LimitWord) (d : Bool)
    (t : Text) : g.read s (verb ++ (w.heading d ++ t)) =
      match t.find? fun c ↦ !isNameChar c with
      | some c => .error (.strayCharacter c)
      | none => g.readBehind s (verb ++ (w.heading d ++ t)) verb (w.heading d ++ t) := by
  have hstray : (verb ++ (w.heading d ++ t)).find? (fun c ↦ !isNameChar c) =
      t.find? fun c ↦ !isNameChar c := by
    rw [List.find?_append, List.find?_append, find?_stray_eq_none (all_isNameChar_verb hv),
      find?_stray_eq_none (w.all_isNameChar_heading d), Option.none_or, Option.none_or]
  have hverb := hg.readLongest?_verb_append hv (w.opens_heading_append d t)
    (w.isDigit_head_heading_append d t)
  cases hfind : t.find? fun c ↦ !isNameChar c with
  | some c => simp only [read, hstray, hfind]
  | none => simp only [read, hstray, hfind, hverb]

/-- What is asked for is read from the text behind the verb alone. -/
theorem subject_of_readBehind (h : g.readBehind s source verb rest = .ok r) :
    r.query.subject = (Subject.read s rest).value := by
  cases readsBehind_of_readBehind h with
  | subject _ => rfl
  | criteria _ _ _ => rfl
  | closing _ _ _ => rfl

/-- Where subjects hand on the same text, all that follows them is read alike. -/
theorem readBehind_of_next_eq (source source' : Text)
    (h : (Subject.read s rest').next = (Subject.read s rest).next) :
    g.readBehind s source' verb rest' = (g.readBehind s source verb rest).map fun r ↦
      ⟨source', { r.query with subject := (Subject.read s rest').value },
        (Subject.read s rest').defects ++ r.defects.drop (Subject.read s rest).defects.length,
        r.edge⟩ := by
  cases hn : (Subject.read s rest).next with
  | stop edge =>
    rw [readBehind_of_stop hn, readBehind_of_stop (h.trans hn), Except.map, List.drop_length,
      List.append_nil]
  | resume behind =>
    have hn' := h.trans hn
    cases hp : Predicate.read s behind with
    | error fault => rw [readBehind_of_error hn hp, readBehind_of_error hn' hp, Except.map]
    | ok p =>
      cases hpn : p.next with
      | stop edge =>
        rw [readBehind_of_criteria hn hp hpn, readBehind_of_criteria hn' hp hpn, Except.map,
          List.drop_left]
      | resume tail =>
        rw [readBehind_of_closing hn hp hpn, readBehind_of_closing hn' hp hpn, Except.map,
          List.append_assoc, List.append_assoc, List.drop_left]

/-- Where the same is asked for, names are read alike but for the recorded source. -/
theorem readBehind_congr (source source' : Text) (h : Subject.read s rest = Subject.read s rest') :
    g.readBehind s source' verb rest' =
      (g.readBehind s source verb rest).map fun r ↦ { r with source := source' } := by
  rw [readBehind_of_next_eq source source' (congrArg Passage.next h.symm), ← h]
  cases hr : g.readBehind s source verb rest with
  | error fault => rfl
  | ok r =>
    obtain ⟨ds, -, hdefects⟩ := exists_defects_eq_append hr
    rw [Except.map, Except.map, ← subject_of_readBehind hr, hdefects, List.drop_left]

/-- No verb goes on with a text that begins with one. -/
theorem IsPrefixFree.append_notMem_verbs (hg : g.IsPrefixFree) (hv : verb ∈ g.verbs) {y : Text}
    (hy : y ≠ []) : verb ++ t ++ y ∉ g.verbs := by
  intro hmem
  rw [List.append_assoc] at hmem
  have heq := hg verb hv _ hmem (List.prefix_append verb (t ++ y))
  rw [List.self_eq_append_right] at heq
  exact hy (List.append_eq_nil_iff.mp heq).2

private theorem suffix_append_iff {x e : Text} (h : e.length ≤ t.length) : e <:+ x ++ t ↔ e <:+ t :=
  ⟨fun he ↦ List.suffix_of_suffix_length_le he (List.suffix_append x t) h,
    fun he ↦ he.trans (List.suffix_append x t)⟩

private theorem continuations_heading (hg : g.IsPrefixFree) (hv : verb ∈ g.verbs) (w w' : LimitWord)
    {d : Bool} (ht : Opens t)
    (h : g.readBehind s (verb ++ (w.heading d ++ t)) verb (w.heading d ++ t) = .ok r)
    (hsource : r.source = verb ++ (w.heading d ++ t)) :
    r.continuations g s =
      { r with source := verb ++ (w'.heading d ++ t) }.continuations g s := by
  have hlength : r.edge.residue.length ≤ t.length := by
    refine (length_residue_le_behindFront h).trans ?_
    rw [Subject.behindFront_heading w d ht]
    exact (List.dropWhile_suffix Char.isDigit).length_le
  refine Reading.continuations_congr rfl rfl ?_ (fun y hy ↦ ?_) fun y hy ↦ ?_
  · rw [hsource, ← List.append_assoc, ← List.append_assoc, suffix_append_iff hlength,
      suffix_append_iff hlength]
  · rw [hsource]
    exact hg.append_notMem_verbs hv hy
  · exact hg.append_notMem_verbs hv hy

/-- The two limit words are interchangeable. In front of a text that opens either both names are
malformed for the same reason, or both are read alike but for the recorded source, and what the
options of either name add to it is the same. -/
theorem limitWords_interchangeable (hg : g.IsPrefixFree) (hv : verb ∈ g.verbs) (d : Bool)
    (ht : Opens t) (w w' : LimitWord) :
    (∃ fault, g.read s (verb ++ (w.heading d ++ t)) = .error fault ∧
        g.read s (verb ++ (w'.heading d ++ t)) = .error fault) ∨
      ∃ (r : Reading) (added : List Text), g.read s (verb ++ (w.heading d ++ t)) = .ok r ∧
        g.read s (verb ++ (w'.heading d ++ t)) =
          .ok { r with source := verb ++ (w'.heading d ++ t) } ∧
        g.options s (verb ++ (w.heading d ++ t)) =
          .ok (added.map (verb ++ (w.heading d ++ t) ++ ·)) ∧
        g.options s (verb ++ (w'.heading d ++ t)) =
          .ok (added.map (verb ++ (w'.heading d ++ t) ++ ·)) := by
  have hread := read_heading_append (s := s) hg hv w d t
  have hread' := read_heading_append (s := s) hg hv w' d t
  cases hstray : t.find? fun c ↦ !isNameChar c with
  | some c =>
    rw [hstray] at hread hread'
    exact Or.inl ⟨_, hread, hread'⟩
  | none =>
    simp only [hstray] at hread hread'
    rw [readBehind_congr (verb ++ (w.heading d ++ t)) (verb ++ (w'.heading d ++ t))
      (Subject.read_heading_congr s w w' d ht)] at hread'
    cases hbehind : g.readBehind s (verb ++ (w.heading d ++ t)) verb (w.heading d ++ t) with
    | error fault =>
      rw [hbehind] at hread hread'
      exact Or.inl ⟨fault, hread, hread'⟩
    | ok r =>
      rw [hbehind] at hread hread'
      have hsource := source_of_read hread
      have hadded := continuations_heading hg hv w w' ht hbehind hsource
      refine Or.inr ⟨r, r.continuations g s, hread, hread', ?_, ?_⟩
      · rw [options_of_read hread, ← hsource, Reading.map_continuations]
      · rw [options_of_read hread', hadded]
        exact congrArg Except.ok (Reading.map_continuations g s _).symm

/-- A name with a number that breaks off inside an operator is completed alike with `Top` and with
`First`. -/
theorem limitWords_interchangeable_sample :
    let t := "007TextByDateIsNo".toList
    ∃ (r : Reading) (added : List Text),
      standard.read .sample ("find".toList ++ (LimitWord.top.heading true ++ t)) = .ok r ∧
      standard.read .sample ("find".toList ++ (LimitWord.first.heading true ++ t)) =
        .ok { r with source := "find".toList ++ (LimitWord.first.heading true ++ t) } ∧
      standard.options .sample ("find".toList ++ (LimitWord.top.heading true ++ t)) =
        .ok (added.map ("find".toList ++ (LimitWord.top.heading true ++ t) ++ ·)) ∧
      standard.options .sample ("find".toList ++ (LimitWord.first.heading true ++ t)) =
        .ok (added.map ("find".toList ++ (LimitWord.first.heading true ++ t) ++ ·)) := by
  intro t
  have hok : ∃ r, standard.read .sample ("find".toList ++ (LimitWord.top.heading true ++ t)) =
      .ok r ∧ r.isValid = false := exists_read_of_any (by decide +kernel)
  have hv : "find".toList ∈ standard.verbs := by decide
  have ht : Opens t := by decide
  rcases limitWords_interchangeable (s := .sample) (by decide) hv true ht .top .first with
    ⟨fault, hfault, -⟩ | h
  · obtain ⟨r, hread, -⟩ := hok
    rw [hread] at hfault
    cases hfault
  · exact h

end Grammar

end QueryNames
