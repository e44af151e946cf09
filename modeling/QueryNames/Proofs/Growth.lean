import QueryNames.Completion
import QueryNames.Proofs.Draft

/-!
# How drafts grow

A proper draft grows by one word into a longer one that is proper again. The words by which it can
grow are those that completion has for its place, where the placeholder stands for any number that
a limit can have.
-/

namespace QueryNames

open Text

namespace Operator

/-- The spellings for a category are those of the operators that suit it. -/
theorem mem_spellingsSuiting_iff {category : Category} {k : Text} :
    k ∈ spellingsSuiting category ↔ ∃ o : Operator, o.suits category = true ∧ k ∈ o.spellings := by
  simp only [spellingsSuiting, suiting, List.mem_flatMap, List.mem_filter]
  constructor
  · intro h
    obtain ⟨o, ⟨-, ho⟩, hk⟩ := h
    exact ⟨o, ho, hk⟩
  · intro h
    obtain ⟨o, ho, hk⟩ := h
    exact ⟨o, ⟨mem_all o, ho⟩, hk⟩

end Operator

namespace Criterion

variable {s : Schema} {c : Criterion} {t k : Text} {p : Property}

/-- The words by which the operator of a criterion may go on. -/
def nextWords (c : Criterion) : List Text :=
  if c.spelling.isSome then c.keywordTails else c.nextKeywords

/-- A word by which the operator goes on completes it to the spelling of a suitable one. -/
theorem exists_suits_of_mem_nextWords (hp : c.property = some p) (hk : k ∈ c.nextWords) :
    ∃ o : Operator, o.suits p.category = true ∧ c.keyword ++ k ∈ o.spellings := by
  rw [nextWords] at hk
  cases hsp : c.spelling with
  | none =>
    have hkey := keyword_of_spelling_eq_none hsp
    have hgroup : c.group = [] := by
      rw [group, hkey]
      rfl
    rw [hsp, Option.isSome_none, if_neg Bool.false_ne_true, nextKeywords, hp] at hk
    simp only [if_pos hgroup, List.mem_append, List.mem_filter, List.mem_singleton] at hk
    rw [hkey, List.nil_append]
    cases hk with
    | inl hfull => exact Operator.mem_spellingsSuiting_iff.mp hfull.1
    | inr hword =>
      refine ⟨.equals, rfl, ?_⟩
      rw [hword.1]
      exact List.mem_cons_self
  | some sp =>
    have hkey := keyword_of_spelling_eq_some hsp
    rw [hsp, Option.isSome_some, if_pos rfl, keywordTails, hp, hsp] at hk
    simp only [List.mem_filterMap, Option.filter_eq_some_iff] at hk
    obtain ⟨whole, hwhole, hprefix, -⟩ := hk
    rw [hkey, ← isPrefixOf?_eq_some_iff.mp hprefix]
    exact Operator.mem_spellingsSuiting_iff.mp hwhole

/-- What completes the keyword of a criterion to one that suits its property is offered. -/
theorem mem_nextWords_of_append {sp : Spelling} (hp : c.property = some p)
    (hsp : c.spelling = some sp) (hk : sp.keyword ++ k ∈ Operator.spellingsSuiting p.category)
    (hne : k ≠ []) : k ∈ c.nextWords := by
  rw [nextWords, hsp, Option.isSome_some, if_pos rfl, keywordTails, hp, hsp]
  refine List.mem_filterMap.mpr ⟨sp.keyword ++ k, hk, ?_⟩
  rw [Option.filter_eq_some_iff, isPrefixOf?_eq_some_iff]
  exact ⟨rfl, decide_eq_true hne⟩

/-- A text that writes a criterion goes on with the rest of a longer spelling. -/
theorem IsWritten.append_keyword {o : Operator} (h : c.IsWritten s t)
    (hk : c.keyword ++ k ∈ o.spellings) :
    IsWritten s { c with spelling := some ⟨o, c.keyword ++ k, hk⟩ } (t ++ k) := by
  obtain ⟨q, hq, front, back, hcq, hres, hkey, hf, rfl⟩ := h
  refine ⟨q, hq, front, back ++ k, hcq, hres, ?_, hf, ?_⟩
  · change c.keyword ++ k = front ++ (back ++ k)
    rw [hkey, List.append_assoc]
  · simp only [markerWord, List.append_assoc]

/-- A text that writes a criterion without a marker goes on with a marker. -/
theorem IsWritten.append_marker (h : c.IsWritten s t) (hc : c.marker = none) (m : CaseMarker) :
    IsWritten s { c with marker := some m } (t ++ m.word) := by
  have hkeyword := c.keyword_eq_nil_or_mem
  obtain ⟨q, hq, front, back, hcq, hres, hkey, hf, rfl⟩ := h
  refine ⟨q, hq, c.keyword, [], hcq, hres, (List.append_nil _).symm, hkeyword, ?_⟩
  have hw : c.markerWord = [] := by
    rw [markerWord, hc]
    rfl
  have hw' : markerWord { c with marker := some m } = m.word := rfl
  rw [hw, hw', hkey]
  simp only [List.nil_append, List.append_nil, List.append_assoc]

/-- A property alone is offered as a criterion. -/
theorem isOffered_identifier (hs : s.IsSeparable) (hp : p ∈ s.properties) :
    IsOffered s p.identifier := by
  have hwritten : IsWritten s ⟨some p, none, none, []⟩ p.identifier :=
    ⟨p, hp, [], [], rfl, rfl, rfl, Or.inl rfl, (List.append_nil _).symm⟩
  apply hwritten.isOffered hs
  intro q _
  rfl

/-- What is offered goes on with the words of its operator. -/
theorem IsOffered.append_nextWord (hs : s.IsSeparable) (h : IsOffered s t)
    (hk : k ∈ (ofText s t).nextWords) : IsOffered s (t ++ k) := by
  obtain ⟨q, -, hq⟩ := h.isWritten.isDeclared.property_mem
  obtain ⟨o, ho, hspelling⟩ := exists_suits_of_mem_nextWords hq hk
  apply (h.isWritten.append_keyword hspelling).isOffered hs
  intro q' hq'
  obtain rfl : q = q' := Option.some.inj (hq.symm.trans hq')
  exact ho

/-- What is offered without a marker goes on with one. -/
theorem IsOffered.append_marker (hs : s.IsSeparable) (h : IsOffered s t)
    (hm : (ofText s t).marker = none) (m : CaseMarker) : IsOffered s (t ++ m.word) :=
  (h.isWritten.append_marker hm m).isOffered hs h.isSuited

end Criterion

namespace OrderItem

/-- A property may follow sort keys of which none lacks a direction that it needs. -/
theorem identifier_mem_words_placeAfter {g : Grammar} {s : Schema} {items : List OrderItem}
    {p : Property} (hp : p ∈ s.properties)
    (hdirs : g.missingDirection = .reject → ∀ i ∈ items, i.direction.isSome) :
    p.identifier ∈ (placeAfter items).words g s := by
  have hmem : p.identifier ∈ s.identifiers := List.mem_map_of_mem hp
  cases hlast : items.getLast? with
  | none =>
    rw [placeAfter, hlast]
    exact hmem
  | some i =>
    cases hdir : i.direction with
    | some d =>
      simp only [placeAfter, hlast, hdir, Option.isSome_some, if_true]
      exact hmem
    | none =>
      simp only [placeAfter, hlast, hdir, Option.isSome_none, Bool.false_eq_true, if_false]
      cases hpolicy : g.missingDirection with
      | reject =>
        have := hdirs hpolicy i (List.mem_of_getLast? hlast)
        rw [hdir] at this
        cases this
      | ascending =>
        simp only [Place.words, hpolicy]
        exact List.mem_append_right _ hmem

end OrderItem

namespace Draft

/-- How a draft grows: the draft, the text that is put behind it, and the draft it becomes. -/
inductive Grows (g : Grammar) (s : Schema) : Draft → Text → Draft → Prop where
  | verb {v : Text} : v ∈ g.verbs → Grows g s blank v (heading ⟨v, .top, .plain⟩)
  | distinct {v : Text} {w : LimitWord} :
      Grows g s (heading ⟨v, w, .plain⟩) Word.distinct (heading ⟨v, w, ⟨true, none, none⟩⟩)
  | limit {v : Text} {w u : LimitWord} {distinct : Bool} :
      Grows g s (heading ⟨v, w, ⟨distinct, none, none⟩⟩) u.word
        (heading ⟨v, u, ⟨distinct, some .implicit, none⟩⟩)
  | number {v : Text} {w : LimitWord} {distinct : Bool} {n : Nat} :
      0 < n → n ≤ Limit.largest →
        Grows g s (heading ⟨v, w, ⟨distinct, some .implicit, none⟩⟩) (numeral n)
          (heading ⟨v, w, ⟨distinct, some (.explicit n), none⟩⟩)
  | property {v : Text} {w : LimitWord} {distinct : Bool} {limit : Option Limit} {p : Property} :
      p ∈ s.properties →
        Grows g s (heading ⟨v, w, ⟨distinct, limit, none⟩⟩) p.identifier
          (heading ⟨v, w, ⟨distinct, limit, some p⟩⟩)
  | introducer {h : Heading} :
      Grows g s (heading h) Word.introducer (body h ⟨[], [], .absent⟩)
  | criterion {h : Heading} {joined : List (Text × Conjunction)} {p : Property} :
      p ∈ s.properties →
        Grows g s (body h ⟨joined, [], .absent⟩) p.identifier
          (body h ⟨joined, p.identifier, .absent⟩)
  | keyword {h : Heading} {joined : List (Text × Conjunction)} {t k : Text} :
      t ≠ [] → k ∈ (Criterion.ofText s t).nextWords →
        Grows g s (body h ⟨joined, t, .absent⟩) k (body h ⟨joined, t ++ k, .absent⟩)
  | marker {h : Heading} {joined : List (Text × Conjunction)} {t : Text} {m : CaseMarker} :
      t ≠ [] → (Criterion.ofText s t).marker = none →
        Grows g s (body h ⟨joined, t, .absent⟩) m.word (body h ⟨joined, t ++ m.word, .absent⟩)
  | conjunction {h : Heading} {joined : List (Text × Conjunction)} {t : Text} {k : Conjunction} :
      t ≠ [] →
        Grows g s (body h ⟨joined, t, .absent⟩) k.word
          (body h ⟨joined ++ [(t, k)], [], .absent⟩)
  | allMarker {h : Heading} {joined : List (Text × Conjunction)} {t : Text} {m : CaseMarker} :
      t ≠ [] →
        Grows g s (body h ⟨joined, t, .absent⟩) m.allWord (body h ⟨joined, t, .marker m⟩)
  | order {h : Heading} {joined : List (Text × Conjunction)} {t : Text} :
      t ≠ [] →
        Grows g s (body h ⟨joined, t, .absent⟩) Word.orderBy (body h ⟨joined, t, .order none []⟩)
  | orderBehindMarker {h : Heading} {joined : List (Text × Conjunction)} {t : Text}
      {m : CaseMarker} :
      Grows g s (body h ⟨joined, t, .marker m⟩) Word.orderBy
        (body h ⟨joined, t, .order (some m) []⟩)
  /-- The conjunction at the end turns out to be the beginning of `OrderBy`. -/
  | orderFromOr {h : Heading} {joined : List (Text × Conjunction)} {t rest : Text} :
      Conjunction.or.word ++ rest = Word.orderBy →
        Grows g s (body h ⟨joined ++ [(t, .or)], [], .absent⟩) rest
          (body h ⟨joined, t, .order none []⟩)
  | orderProperty {h : Heading} {joined : List (Text × Conjunction)} {t : Text}
      {m : Option CaseMarker} {items : List OrderItem} {p : Property} :
      p ∈ s.properties → (g.missingDirection = .reject → ∀ i ∈ items, i.direction.isSome) →
        Grows g s (body h ⟨joined, t, .order m items⟩) p.identifier
          (body h ⟨joined, t, .order m (items ++ [⟨p, none⟩])⟩)
  | direction {h : Heading} {joined : List (Text × Conjunction)} {t : Text}
      {m : Option CaseMarker} {items : List OrderItem} {p : Property} {d : Direction} :
      Grows g s (body h ⟨joined, t, .order m (items ++ [⟨p, none⟩])⟩) d.word
        (body h ⟨joined, t, .order m (items ++ [⟨p, some d⟩])⟩)

variable {g : Grammar} {s : Schema} {d d' : Draft} {t : Text}

/-- A draft grows at its end. -/
theorem Grows.text_eq (h : Grows g s d t d') : d'.text = d.text ++ t := by
  cases h with
  | orderFromOr hrest =>
    simp only [text, Body.chain, Predicate.Chain.text, Ending.text, OrderItem.clause, ← hrest]
    simp
  | _ =>
    simp [text, Heading.text, Subject.text, Subject.plain, Limit.text, Limit.count?, Body.chain,
      Predicate.Chain.text, Ending.text, OrderItem.clause, OrderItem.text]

/-- A draft that grows stays proper. -/
theorem Grows.isProper (hs : s.IsSeparable) (h : Grows g s d t d') (hd : d.IsProper g s) :
    d'.IsProper g s := by
  cases h with
  | verb hv =>
    refine ⟨hv, fun n hn ↦ ?_, fun p hp ↦ ?_⟩
    · cases hn
    · cases hp
  | distinct =>
    refine ⟨hd.verb_mem, fun n hn ↦ ?_, hd.property_mem⟩
    cases hn
  | limit =>
    refine ⟨hd.verb_mem, fun n hn ↦ ?_, hd.property_mem⟩
    cases hn
  | number hpos hmax =>
    refine ⟨hd.verb_mem, fun n hn ↦ ?_, hd.property_mem⟩
    cases hn
    exact ⟨hpos, hmax⟩
  | property hp =>
    refine ⟨hd.verb_mem, hd.isBounded, fun q hq ↦ ?_⟩
    cases hq
    exact hp
  | introducer =>
    exact ⟨hd, List.forall_mem_nil _, Or.inr ⟨rfl, rfl⟩, Ending.isProper_of_items_eq_nil rfl⟩
  | criterion hp =>
    exact ⟨hd.1, hd.2.joined, Or.inl (Criterion.isOffered_identifier hs hp), hd.2.ending⟩
  | keyword hne hk =>
    have hoffered := hd.2.isOffered_last hne
    exact ⟨hd.1, hd.2.joined, Or.inl (hoffered.append_nextWord hs hk), hd.2.ending⟩
  | marker hne hm =>
    have hoffered := hd.2.isOffered_last hne
    exact ⟨hd.1, hd.2.joined, Or.inl (hoffered.append_marker hs hm _), hd.2.ending⟩
  | conjunction hne =>
    refine ⟨hd.1, fun m hm ↦ ?_, Or.inr ⟨rfl, rfl⟩, hd.2.ending⟩
    cases List.mem_append.mp hm with
    | inl hjoined => exact hd.2.joined m hjoined
    | inr hlast =>
      rw [List.mem_singleton.mp hlast]
      exact hd.2.isOffered_last hne
  | allMarker hne =>
    have hoffered := hd.2.isOffered_last hne
    exact ⟨hd.1, hd.2.joined, Or.inl hoffered, Ending.isProper_of_items_eq_nil rfl⟩
  | order hne =>
    have hoffered := hd.2.isOffered_last hne
    exact ⟨hd.1, hd.2.joined, Or.inl hoffered, Ending.isProper_of_items_eq_nil rfl⟩
  | orderBehindMarker =>
    have hoffered := hd.2.isOffered_of_ending (by simp)
    exact ⟨hd.1, hd.2.joined, Or.inl hoffered, Ending.isProper_of_items_eq_nil rfl⟩
  | orderFromOr hrest =>
    have hlast := hd.2.joined _ (List.mem_append_right _ (List.mem_singleton_self _))
    exact ⟨hd.1, fun m hm ↦ hd.2.joined m (List.mem_append_left _ hm), Or.inl hlast,
      Ending.isProper_of_items_eq_nil rfl⟩
  | orderProperty hp hdirs =>
    have hoffered := hd.2.isOffered_of_ending (by simp)
    have hitems := hd.2.ending.property_mem
    exact ⟨hd.1, hd.2.joined, Or.inl hoffered, Ending.isProper_order_concat none hp hitems hdirs⟩
  | @direction h joined t m items p k =>
    have hoffered := hd.2.isOffered_of_ending (by simp)
    have hitems := hd.2.ending.property_mem
    have hdirs := hd.2.ending.direction_isSome
    rw [Ending.items, List.dropLast_concat] at hdirs
    have hp := hitems ⟨p, none⟩ (List.mem_append_right _ (List.mem_singleton_self _))
    exact ⟨hd.1, hd.2.joined, Or.inl hoffered, Ending.isProper_order_concat (some k) hp
      (fun i hi ↦ hitems i (List.mem_append_left _ hi)) hdirs⟩

/-- The text by which a draft grows is a word of its place, or a number in place of the
placeholder. -/
theorem Grows.mem_words (h : Grows g s d t d') :
    t ∈ (d.place s).words g s ∨
      Word.numberSlot ∈ (d.place s).words g s ∧
        ∃ n, 0 < n ∧ n ≤ Limit.largest ∧ t = numeral n := by
  cases h with
  | verb hv => exact Or.inl hv
  | distinct =>
    left
    simp [place, Subject.breakOff, Subject.plain, Place.words]
  | @limit v w u distinct =>
    left
    cases u <;> simp [place, Subject.breakOff, Place.words, LimitWord.all]
  | @number v w distinct n hpos hmax =>
    right
    refine ⟨?_, n, hpos, hmax, rfl⟩
    simp [place, Subject.breakOff, Place.words, Limit.count?]
  | @property v w distinct limit p hp =>
    left
    refine List.mem_append_right _ ?_
    exact List.mem_map_of_mem hp
  | @introducer h' =>
    left
    obtain ⟨v, w, distinct, limit, property⟩ := h'
    cases property <;> simp [place, Subject.breakOff, Place.words]
  | criterion hp =>
    left
    exact List.mem_append_left _ (List.mem_map_of_mem hp)
  | keyword hne hk =>
    left
    simp only [place, Body.place, if_neg hne, Place.words]
    simp only [Criterion.nextWords] at hk
    simp [hk]
  | @marker h joined t m hne hm =>
    left
    simp only [place, Body.place, if_neg hne, Place.words, hm]
    cases m <;> simp [CaseMarker.all]
  | @conjunction h joined t k hne =>
    left
    simp only [place, Body.place, if_neg hne, Place.words]
    cases k <;> simp [Conjunction.all]
  | @allMarker h joined t m hne =>
    left
    simp only [place, Body.place, if_neg hne, Place.words]
    cases m <;> simp [CaseMarker.all]
  | order hne =>
    left
    simp only [place, Body.place, if_neg hne, Place.words]
    simp
  | orderBehindMarker => exact Or.inl (List.mem_singleton_self _)
  | @orderFromOr h joined t rest hrest =>
    left
    simp only [place, Body.place, Place.words, Body.chain, Predicate.Chain.lastConjunction?,
      ← hrest]
    simp
  | @orderProperty h joined t m items p hp hdirs =>
    left
    exact OrderItem.identifier_mem_words_placeAfter hp hdirs
  | @direction h joined t m items p k =>
    left
    simp only [place, Body.place, OrderItem.placeAfter, List.getLast?_concat]
    cases k <;> simp [Place.words, Direction.all]

private theorem exists_grows_heading {h : Heading}
    (hw : t ∈ ((heading h).place s).words g s) :
    (∃ d', Grows g s (heading h) t d') ∨
      t = Word.numberSlot ∧
        ∀ n, 0 < n → n ≤ Limit.largest → ∃ d', Grows g s (heading h) (numeral n) d' := by
  obtain ⟨v, w, distinct, limit, property⟩ := h
  cases property with
  | some p =>
    rw [List.mem_singleton.mp hw]
    exact Or.inl ⟨_, .introducer⟩
  | none =>
    simp only [place, Subject.breakOff, Place.words, List.mem_append] at hw
    rcases hw with (((hd | hl) | hn) | hby) | hi
    · left
      cases distinct with
      | true => cases hd
      | false =>
        cases limit with
        | some l => cases hd
        | none =>
          rw [List.mem_singleton.mp hd]
          exact ⟨_, .distinct⟩
    · left
      cases limit with
      | some l => cases hl
      | none =>
        obtain ⟨u, -, rfl⟩ := List.mem_map.mp hl
        exact ⟨_, .limit⟩
    · right
      cases limit with
      | none => cases hn
      | some l =>
        cases l with
        | explicit n => cases hn
        | implicit =>
          refine ⟨List.mem_singleton.mp hn, fun n hpos hmax ↦ ?_⟩
          exact ⟨_, .number hpos hmax⟩
    · rw [List.mem_singleton.mp hby]
      exact Or.inl ⟨_, .introducer⟩
    · obtain ⟨p, hp, rfl⟩ := List.mem_map.mp hi
      exact Or.inl ⟨_, .property hp⟩

private theorem exists_grows_absent {h : Heading} {joined : List (Text × Conjunction)} {last : Text}
    (hw : t ∈ ((body h ⟨joined, last, .absent⟩).place s).words g s) :
    ∃ d', Grows g s (body h ⟨joined, last, .absent⟩) t d' := by
  by_cases hne : last = []
  · subst hne
    simp only [place, Body.place, if_true, Place.words, List.mem_append] at hw
    rcases hw with hi | hor
    · obtain ⟨p, hp, rfl⟩ := List.mem_map.mp hi
      exact ⟨_, .criterion hp⟩
    · split at hor
      · next hlast =>
        have hrest := isPrefixOf?_eq_some_iff.mp (Option.mem_toList.mp hor)
        rw [beq_iff_eq, Predicate.Chain.lastConjunction?, Option.map_eq_some_iff] at hlast
        obtain ⟨⟨u, k⟩, hm, hk⟩ := hlast
        obtain ⟨init, hinit⟩ := List.getLast?_eq_some_iff.mp hm
        simp only [Body.chain] at hinit hk
        subst hinit hk
        exact ⟨_, .orderFromOr hrest.symm⟩
      · cases hor
  · simp only [place, Body.place, if_neg hne, Place.words, List.mem_append] at hw
    rcases hw with (((hk | hm) | hc) | ha) | ho
    · exact ⟨_, .keyword hne hk⟩
    · cases hmarker : (Criterion.ofText s last).marker with
      | some m =>
        rw [hmarker] at hm
        cases hm
      | none =>
        rw [hmarker] at hm
        obtain ⟨m, -, rfl⟩ := List.mem_map.mp hm
        exact ⟨_, .marker hne hmarker⟩
    · obtain ⟨k, -, rfl⟩ := List.mem_map.mp hc
      exact ⟨_, .conjunction hne⟩
    · obtain ⟨m, -, rfl⟩ := List.mem_map.mp ha
      exact ⟨_, .allMarker hne⟩
    · rw [List.mem_singleton.mp ho]
      exact ⟨_, .order hne⟩

private theorem exists_grows_order {h : Heading} {joined : List (Text × Conjunction)} {last : Text}
    {m : Option CaseMarker} {items : List OrderItem}
    (hdirs : g.missingDirection = .reject → ∀ i ∈ items.dropLast, i.direction.isSome)
    (hw : t ∈ ((body h ⟨joined, last, .order m items⟩).place s).words g s) :
    ∃ d', Grows g s (body h ⟨joined, last, .order m items⟩) t d' := by
  -- sort keys may follow where the last one does not need a direction any more
  have hkey : t ∈ s.identifiers →
      (g.missingDirection = .reject → ∀ i ∈ items, i.direction.isSome) →
        ∃ d', Grows g s (body h ⟨joined, last, .order m items⟩) t d' := by
    intro ht hall
    obtain ⟨p, hp, rfl⟩ := List.mem_map.mp ht
    exact ⟨_, .orderProperty hp hall⟩
  cases items using List.reverseRec with
  | nil => exact hkey hw fun _ ↦ List.forall_mem_nil _
  | append_singleton init i =>
    obtain ⟨p, direction⟩ := i
    simp only [place, Body.place, OrderItem.placeAfter, List.getLast?_concat] at hw
    rw [List.dropLast_concat] at hdirs
    cases direction with
    | some d =>
      apply hkey hw
      intro hpolicy i hi
      cases List.mem_append.mp hi with
      | inl hinit => exact hdirs hpolicy i hinit
      | inr hlast =>
        rw [List.mem_singleton.mp hlast]
        rfl
    | none =>
      simp only [Option.isSome_none, Bool.false_eq_true, if_false, Place.words,
        List.mem_append] at hw
      cases hw with
      | inl hd =>
        obtain ⟨d, -, rfl⟩ := List.mem_map.mp hd
        exact ⟨_, .direction⟩
      | inr hp =>
        cases hpolicy : g.missingDirection with
        | reject =>
          rw [hpolicy] at hp
          cases hp
        | ascending =>
          rw [hpolicy] at hp
          apply hkey hp
          intro hreject
          rw [hpolicy] at hreject
          cases hreject

/-- A proper draft grows by each word of its place, and by any number in place of the
placeholder. -/
theorem exists_grows (h : d.IsProper g s) (hw : t ∈ (d.place s).words g s) :
    (∃ d', Grows g s d t d') ∨
      t = Word.numberSlot ∧
        ∀ n, 0 < n → n ≤ Limit.largest → ∃ d', Grows g s d (numeral n) d' := by
  cases d with
  | blank => exact Or.inl ⟨_, .verb hw⟩
  | heading h' => exact exists_grows_heading hw
  | body h' b =>
    obtain ⟨joined, last, ending⟩ := b
    left
    cases ending with
    | absent => exact exists_grows_absent hw
    | marker m =>
      rw [List.mem_singleton.mp hw]
      exact ⟨_, .orderBehindMarker⟩
    | order m items => exact exists_grows_order h.2.ending.direction_isSome hw

end Draft

end QueryNames
