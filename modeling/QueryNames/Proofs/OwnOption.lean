import QueryNames.Proofs.Residue
import QueryNames.Proofs.Typing

/-!
# When a name is an option of its own

An option puts a word in the place of what is left at the edge of a reading. Since what is left is
none of these words, every option but the name itself is longer than the name, and the name is
offered exactly if it is valid. For this no marker may hide in an identifier.
-/

namespace QueryNames

open Text

/-- Where criteria without a defect break off, nothing is left. -/
theorem Predicate.residue_eq_nil {s : Schema} {t : Text} {p : Passage Predicate} {e : Edge}
    (h : read s t = .ok p) (hd : p.defects = []) (hn : p.next = .stop e) : e.residue = [] := by
  obtain ⟨value, defects, next⟩ := p
  obtain rfl : defects = [] := hd
  obtain rfl : next = .stop e := hn
  obtain ⟨-, hu, -, hnext⟩ := read_eq_ok_iff.mp h
  obtain ⟨hproperty, hresidue⟩ := defect?_eq_none_iff.mp hu.last
  rw [next_of_property (tail_of_next_eq_stop hnext) hproperty] at hnext
  rw [← Next.stop.inj hnext]
  exact hresidue

/-- Where a closing section without a defect ends, nothing is left. -/
theorem Closing.residue_eq_nil {policy : DirectionPolicy} {s : Schema} {t : Text}
    (h : (read policy s t).2.1 = []) : (read policy s t).2.2.residue = [] := by
  cases hm : CaseMarker.readAll t with
  | mk markers rest =>
  simp only [read, hm] at h ⊢
  by_cases hend : markers ≠ [] ∧ rest = []
  · rw [if_pos hend]
  · rw [if_neg hend] at h ⊢
    cases hby : Keyword.read? Word.orderBy rest with
    | none =>
      simp only [hby] at h
      exact absurd (List.append_eq_nil_iff.mp h).2 (List.cons_ne_nil _ _)
    | some behind =>
      simp only [hby] at h ⊢
      exact (OrderItem.endDefects_eq_nil_iff.mp (List.append_eq_nil_iff.mp h).2).1

namespace Grammar

variable {g : Grammar} {s : Schema} {t : Text} {r : Reading}

/-- A valid name has nothing left at its edge. -/
theorem residue_eq_nil_of_isValid (h : g.read s t = .ok r) (hv : r.isValid = true) :
    r.edge.residue = [] := by
  have hall := all_isNameChar_of_read h
  have hd : r.defects = [] := List.isEmpty_iff.mp hv
  cases hr : Keyword.readLongest? id g.verbs t with
  | none =>
    rw [read_of_verb_eq_none hall hr] at h
    obtain rfl := Except.ok.inj h
    cases hd
  | some m =>
    rw [read_of_verb hall hr] at h
    cases readsBehind_of_readBehind h with
    | subject hn =>
      obtain ⟨behind, number, b, rest, hresume, -⟩ := Subject.exists_isRead hd
      rw [hn] at hresume
      cases hresume
    | criteria hn hp hpn =>
      exact Predicate.residue_eq_nil hp (List.append_eq_nil_iff.mp hd).2 hpn
    | closing hn hp hpn => exact Closing.residue_eq_nil (List.append_eq_nil_iff.mp hd).2

/-- What is left at the edge of a reading is none of the words that may stand there. -/
theorem residue_notMem_words (hlacks : ∀ p ∈ s.properties, p.LacksMarkers)
    (h : g.read s t = .ok r) (ht : r.edge.residue <:+ t) :
    r.edge.residue ∉ r.edge.place.words g s := by
  have hall := all_isNameChar_of_read h
  cases hr : Keyword.readLongest? id g.verbs t with
  | none =>
    rw [read_of_verb_eq_none hall hr] at h
    obtain rfl := Except.ok.inj h
    exact fun hmem ↦ Keyword.ne_of_readLongest?_eq_none hr hmem rfl
  | some m =>
    obtain ⟨verb, rest⟩ := m
    rw [read_of_verb hall hr] at h
    have hrest := Keyword.suffix_of_readLongest? hr
    cases readsBehind_of_readBehind h with
    | subject hn =>
      refine Subject.residue_notMem_words g (List.all_eq_true.mpr fun c hc ↦ ?_) hn
      exact List.all_eq_true.mp hall c (hrest.subset hc)
    | criteria hn hp hpn =>
      refine Predicate.residue_notMem_words g hlacks hp hpn ?_
      exact List.suffix_of_suffix_length_le ht ((Subject.suffix_of_resume hn).trans hrest)
        (Predicate.length_residue_le_of_stop hp hpn)
    | @closing behind tail p hn hp hpn =>
      exact Closing.residue_notMem_words g g.missingDirection s tail

/-- Completion only ever extends a text, and the text is an option of its own exactly if it is a
valid name, provided that no marker stands in an identifier. -/
theorem self_mem_options_iff (hlacks : ∀ p ∈ s.properties, p.LacksMarkers)
    (h : g.read s t = .ok r) :
    ∃ options, g.options s t = .ok options ∧ (∀ o ∈ options, t <+: o) ∧
      (t ∈ options ↔ r.isValid = true) := by
  obtain rfl := source_of_read h
  refine ⟨r.options g s, options_of_read h, fun o ho ↦ ?_, ?_⟩
  · obtain ⟨stem, hstem, ⟨w, -, hw, rfl⟩ | ⟨-, -, hverb⟩ | ⟨-, rfl⟩⟩ :=
      Reading.mem_options_iff_exists.mp ho
    · rw [hstem]
      exact (List.prefix_append_right_inj stem).mpr hw
    · exact hverb
    · exact List.prefix_rfl
  · constructor
    · intro hmem
      obtain ⟨stem, hstem, ⟨w, hw, -, heq⟩ | ⟨-, hlt, -⟩ | ⟨hv, -⟩⟩ :=
        Reading.mem_options_iff_exists.mp hmem
      · -- the word in the place of what is left would be what is left
        refine absurd ?_ (residue_notMem_words hlacks h ⟨stem, hstem.symm⟩)
        rwa [List.append_cancel_left (hstem.symm.trans heq)]
      · exact absurd hlt (Nat.lt_irrefl _)
      · exact hv
    · intro hv
      refine Reading.mem_options_iff_exists.mpr ⟨r.source, ?_, Or.inr (Or.inr ⟨hv, rfl⟩)⟩
      rw [residue_eq_nil_of_isValid h hv, List.append_nil]

/-- Over the sample schema a name with a marker inside its criterion is extended, and is not an
option of its own as long as its operator is not complete. -/
theorem self_mem_options_iff_sample :
    ∃ r options, standard.read .sample "findByTextIgnoreCaseIsNo".toList = .ok r ∧
      standard.options .sample "findByTextIgnoreCaseIsNo".toList = .ok options ∧
      (∀ o ∈ options, "findByTextIgnoreCaseIsNo".toList <+: o) ∧
      ("findByTextIgnoreCaseIsNo".toList ∈ options ↔ r.isValid = true) := by
  obtain ⟨r, hread, -⟩ : ∃ r, standard.read .sample "findByTextIgnoreCaseIsNo".toList = .ok r ∧
      r.isValid = false := exists_read_of_any (by decide +kernel)
  have hlacks : ∀ p ∈ Schema.sample.properties, p.LacksMarkers := by decide +kernel
  obtain ⟨options, hoptions, hextends, hself⟩ := self_mem_options_iff hlacks hread
  exact ⟨r, options, hread, hoptions, hextends, hself⟩

/-- A property whose identifier is a marker is offered although the name with it is not valid. -/
example :
    let s : Schema := ⟨[⟨"ignoreCase".toList, .string⟩], by decide, by decide⟩
    ((standard.read s "findByIgnoreCase".toList).toOption.any fun r ↦
      !r.isValid && decide ("findByIgnoreCase".toList ∈ r.options standard s)) = true := by
  decide +kernel

end Grammar

end QueryNames
