import Mathlib.Data.List.Chain
import QueryNames.Proofs.Progress
import QueryNames.Proofs.RoundTrip

/-!
# Completion reaches every name

A complete query is put together as a draft word by word, section by section: its verb and subject,
its criteria one after the other, and what stands behind them. Each word lets the draft grow, and
what a draft grows by can be picked. A grouped keyword takes two picks, since completion offers the
word that opens the group before it offers the rest.
-/

namespace QueryNames

open Text

namespace Criterion

variable {s : Schema} {p : Property} {sp : Spelling}

/-- A property with the keyword of an operator behind it is read as both. -/
theorem ofText_identifier_append (hs : s.IsSeparable) (hp : p ∈ s.properties)
    (spelling : Option Spelling) :
    ofText s (p.identifier ++ (spelling.map Spelling.keyword).getD []) =
      ⟨some p, spelling, none, []⟩ := by
  have hdeclared : IsDeclared s ⟨some p, spelling, none, []⟩ := ⟨⟨p, hp, rfl⟩, rfl⟩
  have htext : text ⟨some p, spelling, none, []⟩ =
      p.identifier ++ (spelling.map Spelling.keyword).getD [] := List.append_nil _
  rw [← htext]
  exact hdeclared.isWritten_text.ofText_eq hs

/-- A keyword outside the group may follow the property at once. -/
theorem keyword_mem_nextWords (hsuits : sp.operator.suits p.category = true)
    (hgroup : ¬Word.group <+: sp.keyword) :
    sp.keyword ∈ nextWords ⟨some p, none, none, []⟩ := by
  have hmem : sp.keyword ∈ Operator.spellingsSuiting p.category :=
    Operator.mem_spellingsSuiting_iff.mpr ⟨sp.operator, hsuits, sp.keyword_mem⟩
  have hnone : Operator.groupOf sp.keyword = [] := by
    rw [Operator.groupOf, if_neg]
    rwa [List.isPrefixOf_iff_prefix]
  refine List.mem_append_left _ (List.mem_filter.mpr ⟨hmem, ?_⟩)
  rw [decide_eq_true_eq]
  exact hnone

/-- The word that opens the group may follow any property. -/
theorem group_mem_nextWords (p : Property) : Word.group ∈ nextWords ⟨some p, none, none, []⟩ := by
  have hmem : Word.group ∈ Operator.spellingsSuiting p.category :=
    Operator.mem_spellingsSuiting_iff.mpr ⟨.equals, rfl, List.mem_cons_self⟩
  refine List.mem_append_right _ (List.mem_filter.mpr ⟨List.mem_singleton_self _, ?_⟩)
  rw [List.any_eq_true]
  exact ⟨Word.group, hmem, rfl⟩

/-- The word that opens the group is an operator of its own. -/
def groupSpelling : Spelling := ⟨.equals, Word.group, List.mem_cons_self⟩

/-- The rest of a grouped keyword may follow the word that opens the group. -/
theorem rest_mem_nextWords {rest : Text} (hsuits : sp.operator.suits p.category = true)
    (hk : sp.keyword = Word.group ++ rest) (hne : rest ≠ []) :
    rest ∈ nextWords ⟨some p, some groupSpelling, none, []⟩ := by
  have hmem : sp.keyword ∈ Operator.spellingsSuiting p.category :=
    Operator.mem_spellingsSuiting_iff.mpr ⟨sp.operator, hsuits, sp.keyword_mem⟩
  rw [hk] at hmem
  exact mem_nextWords_of_append rfl rfl hmem hne

/-- The operator goes on with words that are not empty. -/
theorem ne_nil_of_mem_nextWords {c : Criterion} {k : Text} (hk : k ∈ c.nextWords) : k ≠ [] := by
  obtain ⟨property, spelling, marker, residue⟩ := c
  cases property with
  | none => cases spelling <;> cases hk
  | some p =>
    cases spelling with
    | some sp =>
      obtain ⟨whole, -, hrest⟩ := List.mem_filterMap.mp hk
      exact of_decide_eq_true (Option.filter_eq_some_iff.mp hrest).2
    | none =>
      obtain ⟨o, -, hspelling⟩ := exists_suits_of_mem_nextWords rfl hk
      exact Spelling.keyword_ne_nil ⟨o, k, hspelling⟩

end Criterion

namespace Draft

variable {g : Grammar} {s : Schema} {d d' : Draft} {h : Heading}
  {joined : List (Text × Conjunction)}

/-- A draft becomes another one word by word. -/
abbrev GrowsTo (g : Grammar) (s : Schema) : Draft → Draft → Prop :=
  Relation.ReflTransGen fun d d' ↦ ∃ t, Grows g s d t d'

/-- One word is enough to become what a draft grows into. -/
theorem Grows.growsTo {t : Text} (h : Grows g s d t d') : GrowsTo g s d d' :=
  .single ⟨t, h⟩

/-- No draft grows by the empty text. -/
theorem Grows.ne_nil {t : Text} (h : Grows g s d t d') : t ≠ [] := by
  cases h with
  | verb hv => exact Grammar.verb_ne_nil hv
  | distinct => exact List.cons_ne_nil _ _
  | @limit v w u distinct => cases u <;> exact List.cons_ne_nil _ _
  | number _ _ => exact numeral_ne_nil _
  | property hp => exact (s.named _ hp).identifier_ne_nil
  | introducer => exact List.cons_ne_nil _ _
  | criterion hp => exact (s.named _ hp).identifier_ne_nil
  | keyword _ hk => exact Criterion.ne_nil_of_mem_nextWords hk
  | @marker h joined t m => cases m <;> exact List.cons_ne_nil _ _
  | @conjunction h joined t k => cases k <;> exact List.cons_ne_nil _ _
  | allMarker => exact CaseMarker.allWord_ne_nil _
  | order => exact List.cons_ne_nil _ _
  | orderBehindMarker => exact List.cons_ne_nil _ _
  | orderFromOr hrest =>
    rintro rfl
    cases hrest
  | orderProperty hp _ => exact (s.named _ hp).identifier_ne_nil
  | direction => exact Direction.word_ne_nil _

/-- Any verb and subject can be put together. The limit word matters only where there is a limit. -/
theorem growsTo_heading {v : Text} {subject : Subject} (w : LimitWord) (hv : v ∈ g.verbs)
    (hb : subject.IsBounded) (hp : ∀ p, subject.property = some p → p ∈ s.properties) :
    ∃ u, GrowsTo g s blank (heading ⟨v, u, subject⟩) ∧ subject.text u = subject.text w := by
  obtain ⟨distinct, limit, property⟩ := subject
  have hverb : GrowsTo g s blank (heading ⟨v, .top, .plain⟩) := (Grows.verb hv).growsTo
  have hdistinct : GrowsTo g s blank (heading ⟨v, .top, ⟨distinct, none, none⟩⟩) := by
    cases distinct with
    | false => exact hverb
    | true => exact hverb.trans Grows.distinct.growsTo
  have hlimit : ∃ u, GrowsTo g s blank (heading ⟨v, u, ⟨distinct, limit, none⟩⟩) ∧
      (limit.map (Limit.text u)).getD [] = (limit.map (Limit.text w)).getD [] := by
    cases limit with
    | none => exact ⟨.top, hdistinct, rfl⟩
    | some l =>
      have hword := hdistinct.trans (Grows.limit (s := s) (u := w)).growsTo
      cases l with
      | implicit => exact ⟨w, hword, rfl⟩
      | explicit n =>
        obtain ⟨hpos, hmax⟩ := hb n rfl
        exact ⟨w, hword.trans (Grows.number hpos hmax).growsTo, rfl⟩
  obtain ⟨u, hu, htext⟩ := hlimit
  refine ⟨u, ?_, ?_⟩
  · cases property with
    | none => exact hu
    | some p => exact hu.trans (Grows.property (hp p rfl)).growsTo
  · simp only [Subject.text, htext]

/-- A criterion whose operator suits its property is put together in place of a missing one. -/
theorem growsTo_criterion {c : Criterion} (hs : s.IsSeparable) (hc : c.IsDeclared s)
    (hsuits : ∀ sp ∈ c.spelling, ∀ p ∈ c.property, sp.operator.suits p.category = true) :
    GrowsTo g s (body h ⟨joined, [], .absent⟩) (body h ⟨joined, c.text, .absent⟩) := by
  obtain ⟨property, spelling, marker, residue⟩ := c
  obtain ⟨p, hp, rfl : property = some p⟩ := hc.property_mem
  have hne : p.identifier ≠ [] := (s.named p hp).identifier_ne_nil
  have hproperty : GrowsTo g s (body h ⟨joined, [], .absent⟩)
      (body h ⟨joined, p.identifier, .absent⟩) := (Grows.criterion hp).growsTo
  have hkeyword : GrowsTo g s (body h ⟨joined, [], .absent⟩)
      (body h ⟨joined, p.identifier ++ (spelling.map Spelling.keyword).getD [], .absent⟩) := by
    cases spelling with
    | none =>
      rw [Option.map_none, Option.getD_none, List.append_nil]
      exact hproperty
    | some sp =>
      have hsuit : sp.operator.suits p.category = true := hsuits sp rfl p rfl
      have hread : Criterion.ofText s p.identifier = ⟨some p, none, none, []⟩ := by
        have := Criterion.ofText_identifier_append hs hp none
        rwa [Option.map_none, Option.getD_none, List.append_nil] at this
      by_cases hgroup : Word.group <+: sp.keyword
      · obtain ⟨rest, hk⟩ := hgroup
        have hopen : GrowsTo g s (body h ⟨joined, [], .absent⟩)
            (body h ⟨joined, p.identifier ++ Word.group, .absent⟩) := by
          refine hproperty.trans (Grows.keyword hne ?_).growsTo
          rw [hread]
          exact Criterion.group_mem_nextWords p
        rw [Option.map_some, Option.getD_some, ← hk]
        by_cases hrest : rest = []
        · rw [hrest, List.append_nil]
          exact hopen
        · rw [← List.append_assoc]
          refine hopen.trans (Grows.keyword (List.append_ne_nil_of_left_ne_nil hne _) ?_).growsTo
          have hgroup := Criterion.ofText_identifier_append hs hp (some Criterion.groupSpelling)
          have hword : (Option.map Spelling.keyword (some Criterion.groupSpelling)).getD [] =
              Word.group := rfl
          rw [hword] at hgroup
          rw [hgroup]
          exact Criterion.rest_mem_nextWords hsuit hk.symm hrest
      · refine hproperty.trans (Grows.keyword hne ?_).growsTo
        rw [hread]
        exact Criterion.keyword_mem_nextWords hsuit hgroup
  cases marker with
  | none =>
    have htext : Criterion.text ⟨some p, spelling, none, residue⟩ =
        p.identifier ++ (spelling.map Spelling.keyword).getD [] := List.append_nil _
    rw [htext]
    exact hkeyword
  | some m =>
    refine hkeyword.trans (Grows.marker (List.append_ne_nil_of_left_ne_nil hne _) ?_).growsTo
    rw [Criterion.ofText_identifier_append hs hp spelling]

/-- Criteria are put together one after the other. -/
theorem growsTo_joined {criteria : List (Criterion × Conjunction)} (hs : s.IsSeparable)
    (hc : ∀ m ∈ criteria, m.1.IsDeclared s)
    (hsuits : ∀ m ∈ criteria, ∀ sp ∈ m.1.spelling, ∀ p ∈ m.1.property,
      sp.operator.suits p.category = true) :
    GrowsTo g s (body h ⟨joined, [], .absent⟩)
      (body h ⟨joined ++ criteria.map fun m ↦ (m.1.text, m.2), [], .absent⟩) := by
  induction criteria generalizing joined with
  | nil => rw [List.map_nil, List.append_nil]
  | cons m criteria ih =>
    obtain ⟨hm, hrest⟩ := List.forall_mem_cons.mp hc
    obtain ⟨hmsuits, hrestsuits⟩ := List.forall_mem_cons.mp hsuits
    have hfirst : GrowsTo g s (body h ⟨joined, [], .absent⟩)
        (body h ⟨joined ++ [(m.1.text, m.2)], [], .absent⟩) :=
      (growsTo_criterion hs hm hmsuits).trans (Grows.conjunction hm.isWritten_text.ne_nil).growsTo
    rw [List.map_cons, List.append_cons]
    exact hfirst.trans (ih hrest hrestsuits)

/-- Sort keys are put together one after the other. -/
theorem growsTo_order {last : Text} {m : Option CaseMarker} {done items : List OrderItem}
    (hdone : g.missingDirection = .reject → ∀ i ∈ done, i.direction.isSome)
    (hitems : ∀ i ∈ items, i.IsDeclared g s) :
    GrowsTo g s (body h ⟨joined, last, .order m done⟩)
      (body h ⟨joined, last, .order m (done ++ items)⟩) := by
  induction items generalizing done with
  | nil => rw [List.append_nil]
  | cons i items ih =>
    obtain ⟨hi, hrest⟩ := List.forall_mem_cons.mp hitems
    have hnew : GrowsTo g s (body h ⟨joined, last, .order m done⟩)
        (body h ⟨joined, last, .order m (done ++ [i])⟩) := by
      have hproperty : GrowsTo g s (body h ⟨joined, last, .order m done⟩)
          (body h ⟨joined, last, .order m (done ++ [⟨i.property, none⟩])⟩) :=
        (Grows.orderProperty hi.property_mem hdone).growsTo
      obtain ⟨p, direction⟩ := i
      cases direction with
      | none => exact hproperty
      | some d => exact hproperty.trans Grows.direction.growsTo
    rw [List.append_cons]
    refine hnew.trans (ih (fun hpolicy j hj ↦ ?_) hrest)
    cases List.mem_append.mp hj with
    | inl hmem => exact hdone hpolicy j hmem
    | inr hlast =>
      rw [List.mem_singleton.mp hlast]
      exact hi.direction_isSome hpolicy

/-- What stands behind the criteria is put together. -/
theorem growsTo_closing {last : Text} {closing : Closing} (hl : last ≠ [])
    (horder : ∀ i ∈ closing.order, i.IsDeclared g s) :
    ∃ ending : Ending, GrowsTo g s (body h ⟨joined, last, .absent⟩)
      (body h ⟨joined, last, ending⟩) ∧ ending.text = closing.text := by
  obtain ⟨marker, order⟩ := closing
  have hnone : g.missingDirection = .reject → ∀ i ∈ ([] : List OrderItem), i.direction.isSome :=
    fun _ ↦ List.forall_mem_nil _
  cases order with
  | nil =>
    cases marker with
    | none => exact ⟨.absent, .refl, rfl⟩
    | some m => exact ⟨.marker m, (Grows.allMarker hl).growsTo, (List.append_nil _).symm⟩
  | cons i items =>
    refine ⟨.order marker (i :: items), ?_, rfl⟩
    have hopen : GrowsTo g s (body h ⟨joined, last, .absent⟩)
        (body h ⟨joined, last, .order marker []⟩) := by
      cases marker with
      | none => exact (Grows.order hl).growsTo
      | some m => exact (Grows.allMarker hl).growsTo.trans Grows.orderBehindMarker.growsTo
    exact hopen.trans (growsTo_order hnone horder)

/-- A draft stays proper while it grows. -/
theorem GrowsTo.isProper (hs : s.IsSeparable) (h : GrowsTo g s d d') (hd : d.IsProper g s) :
    d'.IsProper g s := by
  induction h with
  | refl => exact hd
  | tail _ hgrows ih =>
    obtain ⟨t, hgrows⟩ := hgrows
    exact hgrows.isProper hs ih

/-- Every complete query whose operators suit their properties is put together as a draft. -/
theorem exists_growsTo {q : Query} (hs : s.IsSeparable) (hq : q.IsComplete g s)
    (hsuits : ∀ c ∈ q.predicate.criteria, ∀ sp ∈ c.spelling, ∀ p ∈ c.property,
      sp.operator.suits p.category = true) (w : LimitWord) :
    ∃ d : Draft, GrowsTo g s blank d ∧ d.text = q.text w := by
  obtain ⟨v, hv, hqv⟩ := hq.verb_mem
  obtain ⟨u, hheading, hsubject⟩ := growsTo_heading w hv hq.limit_bounds hq.subject_mem
  obtain ⟨criteria, last, hbranches⟩ :=
    Predicate.exists_branches_eq hq.predicate_ne_nil hq.branch_ne_nil
  have hflat : q.predicate.criteria = criteria.map Prod.fst ++ [last] := by
    rw [hbranches]
    exact Predicate.flatten_branches criteria (some last)
  have hmem : ∀ m ∈ criteria, m.1 ∈ q.predicate.criteria := by
    intro m hm
    rw [hflat]
    exact List.mem_append_left _ (List.mem_map_of_mem hm)
  have hlast : last ∈ q.predicate.criteria := by
    rw [hflat]
    exact List.mem_append_right _ (List.mem_singleton_self last)
  have hcriteria := hq.criteria
  have hjoined : GrowsTo g s (body ⟨v, u, q.subject⟩ ⟨[], [], .absent⟩)
      (body ⟨v, u, q.subject⟩ ⟨criteria.map fun m ↦ (m.1.text, m.2), [], .absent⟩) :=
    growsTo_joined hs (fun m hm ↦ hcriteria m.1 (hmem m hm)) fun m hm ↦ hsuits m.1 (hmem m hm)
  have hlast' := hjoined.trans (growsTo_criterion hs (hcriteria last hlast) (hsuits last hlast))
  obtain ⟨ending, hending, htext⟩ :=
    growsTo_closing (hcriteria last hlast).isWritten_text.ne_nil hq.order
  refine ⟨_, (hheading.trans Grows.introducer.growsTo).trans (hlast'.trans hending), ?_⟩
  rw [text, Heading.text, hsubject, Query.text_eq hqv, Query.behindIntroducer, hbranches,
    Predicate.text_branches, ← htext]
  simp only [Body.chain, Predicate.Chain.text, List.flatMap_map, List.append_assoc]

/-- The texts of a draft that grows are picked one from the other. -/
theorem GrowsTo.exists_isChain (hg : g.IsPrefixFree) (hs : s.IsSeparable) (h : GrowsTo g s d d')
    (hd : d.IsProper g s) :
    ∃ texts : List Text, (d.text :: texts).IsChain (fun t u ↦ Pick g s t u ∧ t <+: u ∧ t ≠ u) ∧
      (d.text :: texts).getLast? = some d'.text := by
  induction h using Relation.ReflTransGen.head_induction_on with
  | refl => exact ⟨[], List.isChain_singleton _, rfl⟩
  | @head a c hgrows _ ih =>
    obtain ⟨t, hgrows⟩ := hgrows
    obtain ⟨texts, hchain, hlast⟩ := ih (hgrows.isProper hs hd)
    have hpick := hgrows.pick hg hs hd
    have hnew : a.text <+: a.text ++ t := List.prefix_append _ t
    rw [← hgrows.text_eq] at hnew
    refine ⟨c.text :: texts, List.isChain_cons_cons.mpr ⟨⟨hpick, hnew, fun heq ↦ ?_⟩, hchain⟩, ?_⟩
    · rw [hgrows.text_eq, List.self_eq_append_right] at heq
      exact hgrows.ne_nil heq
    · rwa [List.getLast?_cons_cons]

end Draft

/-- Completion reaches every name. Over a separable schema and a grammar in which no verb is the
beginning of another, picks lead from the empty text to the name of every complete query whose
operators suit their properties, whichever limit word it is written with, and each pick only adds to
the text. -/
theorem Query.exists_picks {g : Grammar} {s : Schema} {q : Query} (hg : g.IsPrefixFree)
    (hs : s.IsSeparable) (hq : q.IsComplete g s)
    (hsuits : ∀ c ∈ q.predicate.criteria, ∀ sp ∈ c.spelling, ∀ p ∈ c.property,
      sp.operator.suits p.category = true) (w : LimitWord) :
    ∃ texts : List Text, texts.head? = some [] ∧ texts.getLast? = some (q.text w) ∧
      texts.IsChain fun t u ↦ Pick g s t u ∧ t <+: u ∧ t ≠ u := by
  obtain ⟨d, hgrows, htext⟩ := Draft.exists_growsTo hs hq hsuits w
  obtain ⟨texts, hchain, hlast⟩ := hgrows.exists_isChain hg hs trivial
  refine ⟨[] :: texts, rfl, ?_, hchain⟩
  rw [← htext]
  exact hlast

/-- Picks lead to the name of the sample, with a number, a grouped keyword, a marker and a sort
key. -/
theorem Query.exists_picks_sample :
    ∃ texts : List Text, texts.head? = some [] ∧
      texts.getLast? =
        some "findDistinctTop10DateByTextIsLikeIgnoreCaseOrDateOrderByTextDesc".toList ∧
      texts.IsChain fun t u ↦ Pick .standard .sample t u ∧ t <+: u ∧ t ≠ u := by
  have hsuits : ∀ c ∈ Query.sample.predicate.criteria, ∀ sp ∈ c.spelling, ∀ p ∈ c.property,
      sp.operator.suits p.category = true := by
    decide
  exact Query.exists_picks (by decide) Schema.isSeparable_sample Query.isComplete_sample hsuits .top

end QueryNames
