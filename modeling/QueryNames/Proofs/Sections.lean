import QueryNames.Completion

/-!
# The sections of a reading

Reading goes from one section to the next as long as each hands on a text. The equations here say
what a name is read as once it is known how far its reading goes, and which texts extend it. Nothing
is supposed of the schema or the grammar.
-/

namespace QueryNames

open Text

namespace Reading

/-- An option puts a word of the place where the residue stands, or it is a longer verb or the valid
name itself. -/
theorem mem_options_iff_exists {g : Grammar} {s : Schema} {r : Reading} {o : Text} :
    o ∈ r.options g s ↔
      ∃ stem, r.source = stem ++ r.edge.residue ∧
        ((∃ w ∈ r.edge.place.words g s, r.edge.residue <+: w ∧ o = stem ++ w) ∨
          (o ∈ g.verbs ∧ r.source.length < o.length ∧ r.source <+: o) ∨
            r.isValid = true ∧ o = r.source) := by
  cases hstem : r.edge.residue.isSuffixOf? r.source with
  | none =>
    have hnone : r.options g s = [] := by simp only [options, hstem]
    rw [hnone]
    refine iff_of_false List.not_mem_nil fun h ↦ ?_
    obtain ⟨stem, heq, -⟩ := h
    rw [isSuffixOf?_eq_some_iff.mpr heq] at hstem
    cases hstem
  | some stem =>
    have heq := isSuffixOf?_eq_some_iff.mp hstem
    have hword : o ∈ ((r.edge.place.words g s).filter r.edge.residue.isPrefixOf).map (stem ++ ·) ↔
        ∃ w ∈ r.edge.place.words g s, r.edge.residue <+: w ∧ o = stem ++ w := by
      simp only [List.mem_map, List.mem_filter, List.isPrefixOf_iff_prefix, and_assoc,
        eq_comm (b := o)]
    have hverb : o ∈ g.verbs.filter
        (fun v ↦ r.source.length < v.length && r.source.isPrefixOf v) ↔
          o ∈ g.verbs ∧ r.source.length < o.length ∧ r.source <+: o := by
      rw [List.mem_filter, Bool.and_eq_true, decide_eq_true_eq, List.isPrefixOf_iff_prefix]
    have hself : o ∈ (if r.isValid then [r.source] else []) ↔ r.isValid = true ∧ o = r.source := by
      split
      · next hv => rw [List.mem_singleton, and_iff_right hv]
      · next hv => exact iff_of_false List.not_mem_nil fun h ↦ hv h.1
    simp only [options, hstem, mem_sortedSet, List.mem_append, hword, hverb, hself, or_assoc]
    constructor
    · intro h
      exact ⟨stem, heq, h⟩
    · intro h
      obtain ⟨stem', heq', h⟩ := h
      obtain rfl := List.append_cancel_right (heq.symm.trans heq')
      exact h

end Reading

namespace Grammar

variable {g : Grammar} {s : Schema} {t source verb rest behind tail : Text} {edge : Edge}
  {p : Passage Predicate}

/-- The options of a text that can be read are those of its reading. -/
theorem options_of_read {r : Reading} (h : g.read s t = .ok r) :
    g.options s t = .ok (r.options g s) := by
  rw [options, h]
  rfl

/-- A text can be read if a check of its reading succeeds. -/
theorem exists_read_of_any {P : Reading → Prop} [DecidablePred P]
    (h : (g.read s t).toOption.any (fun r ↦ decide (P r)) = true) :
    ∃ r, g.read s t = .ok r ∧ P r := by
  cases hread : g.read s t with
  | error fault =>
    rw [hread] at h
    cases h
  | ok r =>
    rw [hread, Except.toOption, Option.any_some, decide_eq_true_eq] at h
    exact ⟨r, rfl, h⟩

/-- What is read is a text of name characters. -/
theorem all_isNameChar_of_read {r : Reading} (h : g.read s t = .ok r) :
    t.all isNameChar = true := by
  rw [read] at h
  split at h
  · cases h
  · next hnone =>
    apply List.all_eq_true.mpr
    intro c hc
    simpa using List.find?_eq_none.mp hnone c hc

/-- A text of name characters holds no stray one. -/
theorem find?_stray_eq_none (hall : t.all isNameChar = true) :
    t.find? (fun c ↦ !isNameChar c) = none := by
  refine List.find?_eq_none.mpr fun c hc ↦ ?_
  simpa using List.all_eq_true.mp hall c hc

/-- Where no verb stands, nothing can be read. -/
theorem read_of_verb_eq_none (hall : t.all isNameChar = true)
    (hr : Keyword.readLongest? id g.verbs t = none) :
    g.read s t = .ok ⟨t, .blank, [.missingVerb], ⟨.verb, t⟩⟩ := by
  simp only [read, find?_stray_eq_none hall, hr]

/-- Reading a name goes on behind its verb. -/
theorem read_of_verb (hall : t.all isNameChar = true)
    (hr : Keyword.readLongest? id g.verbs t = some (verb, rest)) :
    g.read s t = g.readBehind s t verb rest := by
  simp only [read, find?_stray_eq_none hall, hr]

/-- A name whose subject breaks off has nothing else. -/
theorem readBehind_of_stop (h : (Subject.read s rest).next = .stop edge) :
    g.readBehind s source verb rest =
      .ok ⟨source, ⟨some verb, (Subject.read s rest).value, [], .absent⟩,
        (Subject.read s rest).defects, edge⟩ := by
  simp only [readBehind, h]

/-- A name whose criteria are malformed is malformed. -/
theorem readBehind_of_error {fault : Malformation} (h : (Subject.read s rest).next = .resume behind)
    (hp : Predicate.read s behind = .error fault) :
    g.readBehind s source verb rest = .error fault := by
  simp only [readBehind, h, hp]

/-- A name whose criteria break off has nothing behind them. -/
theorem readBehind_of_criteria (h : (Subject.read s rest).next = .resume behind)
    (hp : Predicate.read s behind = .ok p) (hn : p.next = .stop edge) :
    g.readBehind s source verb rest =
      .ok ⟨source, ⟨some verb, (Subject.read s rest).value, p.value, .absent⟩,
        (Subject.read s rest).defects ++ p.defects, edge⟩ := by
  simp only [readBehind, h, hp, hn]

/-- A name goes on behind its criteria with the closing section. -/
theorem readBehind_of_closing (h : (Subject.read s rest).next = .resume behind)
    (hp : Predicate.read s behind = .ok p) (hn : p.next = .resume tail) :
    g.readBehind s source verb rest =
      .ok ⟨source, ⟨some verb, (Subject.read s rest).value, p.value,
          (Closing.read g.missingDirection s tail).1⟩,
        (Subject.read s rest).defects ++ p.defects ++
          (Closing.read g.missingDirection s tail).2.1,
        (Closing.read g.missingDirection s tail).2.2⟩ := by
  simp only [readBehind, h, hp, hn]

/-- How the sections behind a verb are read: up to the one in which the name breaks off. -/
inductive ReadsBehind (g : Grammar) (s : Schema) (source verb rest : Text) : Reading → Prop where
  | subject {edge : Edge} :
      (Subject.read s rest).next = .stop edge →
        ReadsBehind g s source verb rest
          ⟨source, ⟨some verb, (Subject.read s rest).value, [], .absent⟩,
            (Subject.read s rest).defects, edge⟩
  | criteria {behind : Text} {p : Passage Predicate} {edge : Edge} :
      (Subject.read s rest).next = .resume behind → Predicate.read s behind = .ok p →
        p.next = .stop edge →
        ReadsBehind g s source verb rest
          ⟨source, ⟨some verb, (Subject.read s rest).value, p.value, .absent⟩,
            (Subject.read s rest).defects ++ p.defects, edge⟩
  | closing {behind tail : Text} {p : Passage Predicate} :
      (Subject.read s rest).next = .resume behind → Predicate.read s behind = .ok p →
        p.next = .resume tail →
        ReadsBehind g s source verb rest
          ⟨source, ⟨some verb, (Subject.read s rest).value, p.value,
              (Closing.read g.missingDirection s tail).1⟩,
            (Subject.read s rest).defects ++ p.defects ++
              (Closing.read g.missingDirection s tail).2.1,
            (Closing.read g.missingDirection s tail).2.2⟩

/-- What is read behind a verb is read section by section. -/
theorem readsBehind_of_readBehind {r : Reading} (h : g.readBehind s source verb rest = .ok r) :
    g.ReadsBehind s source verb rest r := by
  cases hn : (Subject.read s rest).next with
  | stop edge =>
    rw [readBehind_of_stop hn] at h
    obtain rfl := Except.ok.inj h
    exact .subject hn
  | resume behind =>
    cases hp : Predicate.read s behind with
    | error fault =>
      rw [readBehind_of_error hn hp] at h
      cases h
    | ok p =>
      cases hpn : p.next with
      | stop edge =>
        rw [readBehind_of_criteria hn hp hpn] at h
        obtain rfl := Except.ok.inj h
        exact .criteria hn hp hpn
      | resume tail =>
        rw [readBehind_of_closing hn hp hpn] at h
        obtain rfl := Except.ok.inj h
        exact .closing hn hp hpn

end Grammar

end QueryNames
