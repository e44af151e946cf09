import QueryNames.Proofs.ValidName
import QueryNames.Proofs.WrittenName

/-!
# Legible names

The name of a complete query is legible if, read from left to right, nothing longer than the meant
word stands at any place: no longer verb, no longer identifier, no second order clause, and each
criterion is understood when it stands alone. A legible name is read back as its query.
-/

namespace QueryNames

open Text

namespace Query

/-- What stands behind `By` in the name of a query. -/
def behindIntroducer (q : Query) : Text := q.predicate.text ++ q.closing.text

/-- The name of a query begins with its verb. -/
theorem text_eq {q : Query} {verb : Text} (h : q.verb = some verb) (w : LimitWord) :
    q.text w = verb ++ (q.subject.text w ++ (Word.introducer ++ q.behindIntroducer)) := by
  rw [text, h, behindIntroducer, Option.getD_some]
  simp only [List.append_assoc]

/-- What stands behind `By` begins with a property. -/
theorem IsComplete.opens_behindIntroducer {g : Grammar} {s : Schema} {q : Query}
    (h : q.IsComplete g s) : Opens q.behindIntroducer := by
  obtain ⟨branch, others, hq⟩ := List.exists_cons_of_ne_nil h.predicate_ne_nil
  have hbranch : branch ∈ q.predicate := hq ▸ List.mem_cons_self
  obtain ⟨c, branch, rfl⟩ := List.exists_cons_of_ne_nil (h.branch_ne_nil branch hbranch)
  have hc := (h.criteria c (List.mem_flatten_of_mem hbranch List.mem_cons_self)).isWritten_text
  rw [behindIntroducer, Predicate.text_eq_joinBranches, hq, List.map_cons, List.map_cons,
    Predicate.joinBranches_cons_cons, List.append_assoc]
  exact (opens_append_of_ne_nil hc.ne_nil).mpr hc.opens

/-- Nothing longer than the meant word stands at any place of the name of a query. -/
structure IsLegible (g : Grammar) (s : Schema) (w : LimitWord) (q : Query) : Prop where
  verb : ∀ v ∈ g.verbs, (Keyword.read? v (q.text w)).isSome → v.length ≤ (q.verb.getD []).length
  subject : ∀ p ∈ q.subject.property, s.Fits p.identifier (Word.introducer ++ q.behindIntroducer)
  criteria : ∀ c ∈ q.predicate.criteria, Criterion.ofText s c.text = c
  places : ∀ m ∈ Predicate.places q.closing.text (q.predicate.map (List.map Criterion.text)),
    s.Fits m.1 m.2
  orderBy : Keyword.count Word.orderBy q.behindIntroducer ≤ 1

instance (g : Grammar) (s : Schema) (w : LimitWord) (q : Query) : Decidable (q.IsLegible g s w) :=
  decidable_of_iff
    ((∀ v ∈ g.verbs, (Keyword.read? v (q.text w)).isSome → v.length ≤ (q.verb.getD []).length) ∧
      (∀ p ∈ q.subject.property, s.Fits p.identifier (Word.introducer ++ q.behindIntroducer)) ∧
      (∀ c ∈ q.predicate.criteria, Criterion.ofText s c.text = c) ∧
      (∀ m ∈ Predicate.places q.closing.text (q.predicate.map (List.map Criterion.text)),
        s.Fits m.1 m.2) ∧
      Keyword.count Word.orderBy q.behindIntroducer ≤ 1)
    ⟨fun ⟨hv, hp, hc, hm, ho⟩ ↦ ⟨hv, hp, hc, hm, ho⟩,
      fun h ↦ ⟨h.verb, h.subject, h.criteria, h.places, h.orderBy⟩⟩

/-- The words of a query can stand next to each other: the verb ends where the subject begins, what
stands behind the front of the subject is not taken for a part of it, and what stands behind the
criteria is read back. -/
structure IsJoined (g : Grammar) (s : Schema) (w : LimitWord) (q : Query) : Prop where
  verb : ∀ v ∈ q.verb,
    isSeam v.getLast? (q.subject.text w ++ (Word.introducer ++ q.behindIntroducer)) = true
  subject : q.subject.Admits (q.subject.rear q.behindIntroducer)
  introducer : ∀ p ∈ q.subject.property, headWord p.identifier ≠ Word.introducer
  closing : q.closing.text ≠ [] →
    ∃ edge, Closing.read g.missingDirection s q.closing.text = (q.closing, [], edge)

end Query

namespace Grammar

variable {g : Grammar} {s : Schema} {q : Query} {w : LimitWord}

private theorem readLongest?_verb {verb : Text} (hverb : verb ∈ g.verbs) (hq : q.verb = some verb)
    (hj : q.IsJoined g s w) (hl : q.IsLegible g s w) :
    Keyword.readLongest? id g.verbs (q.text w) =
      some (verb, q.subject.text w ++ (Word.introducer ++ q.behindIntroducer)) := by
  have hread : Keyword.read? verb (q.text w) =
      some (q.subject.text w ++ (Word.introducer ++ q.behindIntroducer)) :=
    Keyword.read?_eq_some_iff.mpr ⟨q.text_eq hq w, hj.verb verb hq⟩
  refine longest?_eq_some hverb hread fun v hv d hd ↦ ?_
  have hle := hl.verb v hv (Option.isSome_of_eq_some hd)
  rw [hq, Option.getD_some] at hle
  rcases Nat.lt_or_eq_of_le hle with hlt | heq
  · exact Or.inr hlt
  · left
    have hprefix : v <+: q.text w := ⟨d, (Keyword.read?_eq_some_iff.mp hd).1.symm⟩
    have hprefix' : verb <+: q.text w := ⟨_, (Keyword.read?_eq_some_iff.mp hread).1.symm⟩
    exact (List.prefix_of_prefix_length_le hprefix hprefix' hle).eq_of_length heq

private theorem read_predicate (hq : q.IsComplete g s) (hl : q.IsLegible g s w) :
    ∃ m : Predicate.Chain, m.IsWritten s ∧ m.text = q.behindIntroducer ∧ m.tail = q.closing.text ∧
      Predicate.read s q.behindIntroducer = .ok ⟨q.predicate, [], Predicate.next s m⟩ := by
  obtain ⟨m, hm, -, htail, htext, hbranch, hof⟩ := Predicate.exists_isWritten
    hq.predicate_ne_nil hq.branch_ne_nil hq.criteria hl.criteria (Closing.isTail_text hq.order)
  have hplaces : ∀ x ∈ m.places, s.Fits x.1 x.2 := by
    rw [Predicate.Chain.places, htail, hbranch]
    exact hl.places
  have hchain : Predicate.chain s q.behindIntroducer = m := by
    rw [Query.behindIntroducer, ← htext]
    exact Predicate.chain_text_of_fits hm hplaces
  have hunderstood : m.IsUnderstood s := by
    rw [Predicate.Chain.isUnderstood_iff_branchTexts, hbranch, ← List.map_flatten]
    intro f hf
    obtain ⟨c, hc, rfl⟩ := List.mem_map.mp hf
    obtain ⟨p, -, hp⟩ := (hq.criteria c hc).property_mem
    rw [Predicate.defect?_eq_none_iff, hl.criteria c hc, hp]
    exact ⟨rfl, (hq.criteria c hc).residue_eq_nil⟩
  refine ⟨m, hm, htext, htail, Predicate.read_eq_ok_iff.mpr ⟨hl.orderBy, ?_, ?_, ?_⟩⟩
  · rw [hchain]
    exact hunderstood
  · rw [hchain, hof]
  · rw [hchain]

/-- The name of a complete query is read back without a defect if its words can stand next to each
other and it is legible. -/
theorem read_text_of_isLegible (hq : q.IsComplete g s) (hj : q.IsJoined g s w)
    (hl : q.IsLegible g s w) : ∃ edge, g.read s (q.text w) = .ok ⟨q.text w, q, [], edge⟩ := by
  obtain ⟨verb, hverb, hqv⟩ := hq.verb_mem
  obtain ⟨m, hm, htext, htail, hpredicate⟩ := read_predicate hq hl
  have hname : (q.text w).all isNameChar = true := by
    have hword : Word.introducer.all isNameChar = true := by decide
    have hall : q.behindIntroducer.all isNameChar = true :=
      htext ▸ hm.isSparse.all_isNameChar (htail ▸ Closing.all_isNameChar_text hq.order)
    rw [q.text_eq hqv, List.all_append, List.all_append, List.all_append, all_isNameChar_verb hverb,
      Subject.all_isNameChar_text hq.subject_mem, hword, hall]
    rfl
  have hsubject := Subject.read_text_append_of_fits (w := w) hq.limit_bounds hj.subject
    hq.opens_behindIntroducer
    fun p hp ↦ ⟨hq.subject_mem p hp, hj.introducer p hp, hl.subject p hp⟩
  rw [read_of_verb hname (readLongest?_verb hverb hqv hj hl)]
  simp only [readBehind, hsubject, hpredicate, List.nil_append]
  obtain ⟨qverb, subject, predicate, closing⟩ := q
  obtain rfl : qverb = some verb := hqv
  by_cases hnil : closing.text = []
  · obtain ⟨edge, hedge⟩ := Predicate.exists_next_eq_stop s (htail.trans hnil)
    simp only [hedge, Closing.eq_absent_of_text_eq_nil hnil]
    exact ⟨edge, rfl⟩
  · have hne : m.tail ≠ [] := fun h ↦ hnil (htail ▸ h)
    obtain ⟨edge, hedge⟩ := hj.closing hnil
    simp only [Predicate.next_of_tail_ne_nil s hne, htail, hedge]
    exact ⟨edge, rfl⟩

end Grammar

end QueryNames
