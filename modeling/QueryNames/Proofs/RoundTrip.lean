import QueryNames.Proofs.Legible

/-!
# Reading undoes writing

Over a separable schema and a prefix-free grammar the name of a complete query is read back as that
query. The criteria are written as a chain, what stands behind them as its tail, and each section
reads its own part.
-/

namespace QueryNames

open Text

namespace Grammar

variable {g : Grammar} {s : Schema} {q : Query} {w : LimitWord}

/-- The words of a complete query can stand next to each other in a separable schema. -/
theorem isJoined_of_isSeparable (hs : s.IsSeparable) (hq : q.IsComplete g s) :
    q.IsJoined g s w := by
  have hrear := Word.opens_introducer_append q.behindIntroducer
  have hdigit := Word.isDigit_head_introducer_append q.behindIntroducer
  obtain ⟨verb, hverb, hqv⟩ := hq.verb_mem
  refine ⟨fun v hv ↦ ?_, Subject.admits_rear hs hq.subject_mem hq.opens_behindIntroducer,
    fun p hp ↦ ?_, Closing.read_text hs hq.order⟩
  · have hread := read?_verb_append hverb (Subject.opens_text_append (w := w) hq.subject_mem hrear)
      (Subject.isDigit_head_text_append hs hq.subject_mem hdigit)
    obtain rfl : verb = v := Option.some.inj (hqv.symm.trans hv)
    exact (Keyword.read?_eq_some_iff.mp hread).2
  · exact (hs.lacksIntroducer p (hq.subject_mem p hp)).headWord_ne

/-- The name of a complete query is legible over a separable schema. -/
theorem isLegible_of_isSeparable (hg : g.IsPrefixFree) (hs : s.IsSeparable)
    (hq : q.IsComplete g s) : q.IsLegible g s w := by
  obtain ⟨verb, hverb, hqv⟩ := hq.verb_mem
  have hcriteria : ∀ c ∈ q.predicate.criteria, Criterion.ofText s c.text = c :=
    fun c hc ↦ (hq.criteria c hc).isWritten_text.ofText_eq hs
  obtain ⟨m, hm, -, htail, htext, hbranch, -⟩ := Predicate.exists_isWritten hq.predicate_ne_nil
    hq.branch_ne_nil hq.criteria hcriteria (Closing.isTail_text hq.order)
  have hbehind : m.text = q.behindIntroducer := htext
  have hplaces : Predicate.places q.closing.text (q.predicate.map (List.map Criterion.text)) =
      m.places := by
    rw [Predicate.Chain.places, htail, hbranch]
  refine ⟨fun v hv hread ↦ ?_, fun p hp ↦ ?_, hcriteria, ?_, ?_⟩
  · obtain ⟨d, hd⟩ := Option.isSome_iff_exists.mp hread
    have hv' : v <+: q.text w := ⟨d, (Keyword.read?_eq_some_iff.mp hd).1.symm⟩
    have hverb' : verb <+: q.text w := ⟨_, (q.text_eq hqv w).symm⟩
    have heq : v = verb := by
      rcases List.prefix_or_prefix_of_prefix hv' hverb' with h | h
      · exact hg v hv verb hverb h
      · exact (hg verb hverb v hv h).symm
    rw [hqv, heq, Option.getD_some]
  · have hfits := hs.isPrefixFree.fits (hq.subject_mem p hp) []
      (Word.introducer ++ q.behindIntroducer)
    rwa [List.append_nil] at hfits
  · rw [hplaces]
    exact hm.fits hs
  · have hcount := Keyword.count_orderBy_le q.behindIntroducer
    have hclosing := Closing.count_introducer_text hs hq.order
    rw [← hbehind, hm.isSparse.count_introducer hs, htail] at hcount
    rw [← hbehind]
    omega

/-- The name of a complete query is read back without a defect. -/
theorem read_text_of_isComplete (hg : g.IsPrefixFree) (hs : s.IsSeparable)
    (hq : q.IsComplete g s) :
    ∃ edge, g.read s (q.text w) = .ok ⟨q.text w, q, [], edge⟩ :=
  read_text_of_isLegible hq (isJoined_of_isSeparable hs hq) (isLegible_of_isSeparable hg hs hq)

/-- Reading undoes writing: over a separable schema and a grammar in which no verb is the beginning
of another, the name of a complete query is valid and says exactly that query, whichever limit word
it is written with. Its canonical form is the name with `Top`. -/
theorem read_name (hg : g.IsPrefixFree) (hs : s.IsSeparable) (hq : q.IsComplete g s)
    (w : LimitWord) :
    ∃ r, g.read s (q.text w) = .ok r ∧ r.isValid = true ∧ r.query = q ∧
      r.source = q.text w ∧ r.canonical = q.text .top := by
  obtain ⟨edge, hread⟩ := read_text_of_isComplete (w := w) hg hs hq
  obtain ⟨verb, -, hverb⟩ := hq.verb_mem
  refine ⟨_, hread, rfl, rfl, rfl, ?_⟩
  have hby : Defect.missingBy ∉ ([] : List Defect) := List.not_mem_nil
  have horder : Defect.emptyOrder ∉ ([] : List Defect) := List.not_mem_nil
  simp only [Reading.canonical, hverb, if_neg hby, if_neg horder, List.append_nil]

end Grammar

/-- Different dates, ten at most, of which the text is like something, letter case aside, or the
date is given; sorted by text. -/
def Query.sample : Query where
  verb := some "find".toList
  subject := ⟨true, some (.explicit 10), some ⟨"date".toList, .date⟩⟩
  predicate :=
    [[⟨some ⟨"text".toList, .string⟩, some ⟨.like, "IsLike".toList, by decide⟩, some .ignoreCase,
        []⟩],
      [⟨some ⟨"date".toList, .date⟩, none, none, []⟩]]
  closing := ⟨none, [⟨⟨"text".toList, .string⟩, some .descending⟩]⟩

/-- The sample is complete. -/
theorem Query.isComplete_sample : Query.sample.IsComplete .standard .sample where
  verb_mem := ⟨"find".toList, by decide, rfl⟩
  limit_bounds := by
    intro n hn
    have hn : 10 = n := Limit.explicit.inj (Option.some.inj hn)
    subst hn
    decide
  subject_mem := by
    intro p hp
    rw [← Option.some.inj hp]
    decide
  predicate_ne_nil := List.cons_ne_nil _ _
  branch_ne_nil := by decide
  criteria := by
    have key : ∀ c ∈ Query.sample.predicate.criteria,
        (∃ p ∈ Schema.sample.properties, c.property = some p) ∧ c.residue = [] := by decide
    exact fun c hc ↦ ⟨(key c hc).1, (key c hc).2⟩
  order := by
    intro i hi
    rw [List.mem_singleton.mp hi]
    exact ⟨by decide, fun _ ↦ rfl⟩

/-- The name of the sample is read back. -/
theorem Grammar.read_name_sample :
    ∃ r, standard.read .sample
        "findDistinctTop10DateByTextIsLikeIgnoreCaseOrDateOrderByTextDesc".toList = .ok r ∧
      r.isValid = true ∧ r.query = .sample := by
  obtain ⟨r, hread, hvalid, hquery, -⟩ := read_name (g := standard) (s := .sample)
    (q := .sample) (by decide) Schema.isSeparable_sample Query.isComplete_sample .top
  exact ⟨r, hread, hvalid, hquery⟩

end QueryNames
