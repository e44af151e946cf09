import QueryNames.Proofs.ValidName
import QueryNames.Proofs.WrittenName

/-!
# Names without a subject

Where `By` follows the verb at once, the criteria begin behind it, whatever they are. Such a name is
valid exactly if the text behind `By` is understood as criteria with what may stand behind them.
Nothing is supposed of the schema.
-/

namespace QueryNames

open Text

/-- Behind `By` at the head of a text the criteria begin, and nothing in particular is asked for. -/
theorem Subject.read_introducer_append (s : Schema) {t : Text} (ht : Opens t) :
    read s (Word.introducer ++ t) = ⟨.plain, [], .resume t⟩ := by
  have hread : read s (plain.front .top ++ (Word.introducer ++ t)) = ⟨.plain, [], .resume t⟩ :=
    read_front_introducer (fun n hn ↦ nomatch hn) (admits_introducer .plain ht) ht
  exact hread

/-- What stands behind the criteria is read without a defect, unless nothing does. -/
inductive Closing.IsRead (policy : DirectionPolicy) (s : Schema) : Text → Closing → Prop where
  | absent : IsRead policy s [] .absent
  | present {t : Text} {c : Closing} (edge : Edge) :
      t ≠ [] → read policy s t = (c, [], edge) → IsRead policy s t c

namespace Grammar

/-- A text is understood as criteria and what stands behind them. -/
structure Understands (g : Grammar) (s : Schema) (t : Text) (p : Predicate) (c : Closing) :
    Prop where
  count_orderBy : Keyword.count Word.orderBy t ≤ 1
  isUnderstood : (Predicate.chain s t).IsUnderstood s
  predicate : Predicate.ofChain s (Predicate.chain s t) = p
  closing : Closing.IsRead g.missingDirection s (Predicate.chain s t).tail c

variable {g : Grammar} {s : Schema} {verb t : Text} {p : Predicate} {c : Closing} {r : Reading}

/-- Where the criteria begin behind a verb and `By`, a name goes on with them. -/
theorem read_bare (hg : g.IsPrefixFree) (hv : verb ∈ g.verbs) (hall : t.all isNameChar = true) :
    g.read s (verb ++ (Word.introducer ++ t)) =
      g.readBehind s (verb ++ (Word.introducer ++ t)) verb (Word.introducer ++ t) := by
  have hword : Word.introducer.all isNameChar = true := by decide
  have hname : (verb ++ (Word.introducer ++ t)).all isNameChar = true := by
    rw [List.all_append, List.all_append, all_isNameChar_verb hv, hword, hall]
    rfl
  exact read_of_verb hname (hg.readLongest?_verb_append hv (Word.opens_introducer_append t)
    (Word.isDigit_head_introducer_append t))

section Behind

variable (ht : Opens t)

include ht

private theorem exists_readBehind (source verb : Text) (h : g.Understands s t p c) :
    ∃ r, g.readBehind s source verb (Word.introducer ++ t) = .ok r ∧ r.isValid = true ∧
      r.query = ⟨some verb, .plain, p, c⟩ := by
  have hsubject := Subject.read_introducer_append s ht
  have hnext : (Subject.read s (Word.introducer ++ t)).next = .resume t := congrArg Passage.next
    hsubject
  have hread := Predicate.read_eq_ok_iff.mpr ⟨h.count_orderBy, h.isUnderstood, h.predicate, rfl⟩
  have hclosing := h.closing
  generalize htail : (Predicate.chain s t).tail = tail at hclosing
  cases hclosing with
  | absent =>
    obtain ⟨edge, hedge⟩ := Predicate.exists_next_eq_stop s htail
    refine ⟨_, readBehind_of_criteria hnext hread hedge, ?_, ?_⟩
    · rw [hsubject]
      rfl
    · rw [hsubject]
  | present edge hne hc =>
    have hresume := Predicate.next_of_tail_ne_nil s (htail.symm ▸ hne)
    rw [htail] at hresume
    refine ⟨_, readBehind_of_closing hnext hread hresume, ?_, ?_⟩
    · rw [hsubject, hc]
      rfl
    · rw [hsubject, hc]

private theorem understands_of_readBehind {source : Text}
    (h : g.readBehind s source verb (Word.introducer ++ t) = .ok r) (hvalid : r.isValid = true) :
    g.Understands s t r.query.predicate r.query.closing := by
  have hd : r.defects = [] := List.isEmpty_iff.mp hvalid
  have hsubject := Subject.read_introducer_append s ht
  have hnext : (Subject.read s (Word.introducer ++ t)).next = .resume t := congrArg Passage.next
    hsubject
  cases readsBehind_of_readBehind h with
  | subject hn =>
    rw [hnext] at hn
    cases hn
  | @criteria behind passage edge hn hp hpn =>
    obtain rfl : t = behind := Next.resume.inj (hnext.symm.trans hn)
    obtain ⟨value, defects, next⟩ := passage
    obtain rfl : next = .stop edge := hpn
    obtain rfl : defects = [] := (List.append_eq_nil_iff.mp hd).2
    obtain ⟨hcount, hu, hvalue, hstop⟩ := Predicate.read_eq_ok_iff.mp hp
    refine ⟨hcount, hu, hvalue, ?_⟩
    rw [Predicate.tail_of_next_eq_stop hstop]
    exact .absent
  | @closing behind tail passage hn hp hpn =>
    obtain rfl : t = behind := Next.resume.inj (hnext.symm.trans hn)
    obtain ⟨value, defects, next⟩ := passage
    obtain rfl : next = .resume tail := hpn
    obtain ⟨hfront, hclosing⟩ := List.append_eq_nil_iff.mp hd
    obtain rfl : defects = [] := (List.append_eq_nil_iff.mp hfront).2
    obtain ⟨hcount, hu, hvalue, hresume⟩ := Predicate.read_eq_ok_iff.mp hp
    have htail := Predicate.tail_of_next_eq_resume hresume
    refine ⟨hcount, hu, hvalue, ?_⟩
    rw [htail]
    refine .present (Closing.read g.missingDirection s tail).2.2 ?_ ?_
    · rintro rfl
      obtain ⟨edge, hedge⟩ := Predicate.exists_next_eq_stop s htail
      rw [hresume] at hedge
      cases hedge
    · rw [← hclosing]

end Behind

/-- A verb with `By` and a text behind it is a valid name exactly if the text is understood. -/
theorem exists_read_bare_iff (hg : g.IsPrefixFree) (hv : verb ∈ g.verbs) (ht : Opens t) :
    (∃ r, g.read s (verb ++ (Word.introducer ++ t)) = .ok r ∧ r.isValid = true ∧
        r.query.predicate = p ∧ r.query.closing = c) ↔
      t.all isNameChar = true ∧ g.Understands s t p c := by
  constructor
  · rintro ⟨r, hread, hvalid, rfl, rfl⟩
    have hname := all_isNameChar_of_read hread
    rw [List.all_append, List.all_append, Bool.and_eq_true, Bool.and_eq_true] at hname
    rw [read_bare hg hv hname.2.2] at hread
    exact ⟨hname.2.2, understands_of_readBehind ht hread hvalid⟩
  · rintro ⟨hall, hunderstands⟩
    obtain ⟨r, hread, hvalid, hquery⟩ :=
      exists_readBehind ht (verb ++ (Word.introducer ++ t)) verb hunderstands
    refine ⟨r, (read_bare hg hv hall).trans hread, hvalid, ?_, ?_⟩
    · rw [hquery]
    · rw [hquery]

end Grammar

end QueryNames
