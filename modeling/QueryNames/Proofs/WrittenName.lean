import QueryNames.Proofs.ClosingSection
import QueryNames.Proofs.Sections
import QueryNames.Proofs.SubjectSection

/-!
# Reading a written name

The sections of a name put together: a verb that no other verb begins with, a subject, and a chain
of criteria with what stands behind it. Whatever a separable schema and a prefix-free grammar allow
to be written is read section by section as it was written.
-/

namespace QueryNames

open Text

namespace Subject

variable {s : Schema} {subject : Subject} {w : LimitWord}

/-- No digit stands at the head of a subject. -/
theorem isDigit_head_text_append (hs : s.IsSeparable)
    (hp : ∀ p, subject.property = some p → p ∈ s.properties) {t : Text}
    (ht : ∀ c ∈ t.head?, c.isDigit = false) :
    ∀ c ∈ (subject.text w ++ t).head?, c.isDigit = false := by
  obtain ⟨distinct, limit, property⟩ := subject
  intro c hc
  cases distinct with
  | true =>
    obtain rfl : 'D' = c := Option.some.inj hc
    rfl
  | false =>
    cases limit with
    | some l =>
      cases w with
      | top =>
        obtain rfl : 'T' = c := Option.some.inj hc
        rfl
      | first =>
        obtain rfl : 'F' = c := Option.some.inj hc
        rfl
    | none =>
      cases property with
      | none => exact ht c hc
      | some p =>
        have hmem := hp p rfl
        have htext : text w ⟨false, none, some p⟩ = p.identifier := rfl
        rw [htext, List.head?_append_of_ne_nil _ (s.named p hmem).identifier_ne_nil] at hc
        exact (hs.headIsFree p hmem).isDigit_eq_false hc

/-- A subject consists of name characters. -/
theorem all_isNameChar_text (hp : ∀ p, subject.property = some p → p ∈ s.properties) :
    (subject.text w).all isNameChar = true := by
  obtain ⟨distinct, limit, property⟩ := subject
  have hd : (if distinct then Word.distinct else []).all isNameChar = true := by
    cases distinct <;> decide
  have hl : ((limit.map (Limit.text w)).getD []).all isNameChar = true := by
    cases limit with
    | none => rfl
    | some l =>
      have hw : w.word.all isNameChar = true := by cases w <;> decide
      have hdigits : l.digits.all isNameChar = true := by
        apply List.all_eq_true.mpr
        intro c hc
        unfold isNameChar Char.isAlphanum
        rw [l.all_isDigit_digits c hc, Bool.or_true, Bool.true_or]
      have := l.text_append w []
      rw [List.append_nil, List.append_nil] at this
      rw [Option.map_some, Option.getD_some, this, List.all_append, hw, hdigits]
      rfl
  have hprop : ((property.map Property.identifier).getD []).all isNameChar = true := by
    cases property with
    | none => rfl
    | some p => exact (s.named p (hp p rfl)).all_isNameChar
  rw [text, List.all_append, List.all_append, hd, hl, hprop]
  rfl

end Subject

namespace Predicate.Chain

variable {s : Schema} {p : Chain}

/-- A sparse chain consists of name characters if its tail does. -/
theorem IsSparse.all_isNameChar (h : p.IsSparse s) (ht : p.tail.all isNameChar = true) :
    p.text.all isNameChar = true := by
  have htext : ∀ t : Text, (t = [] ∨ ∃ c : Criterion, c.IsWritten s t) →
      t.all isNameChar = true := by
    rintro t (rfl | ⟨c, hc⟩)
    · rfl
    · exact hc.all_isNameChar
  have hjoined : (p.joined.flatMap fun m ↦ m.1 ++ m.2.word).all isNameChar = true := by
    apply List.all_eq_true.mpr
    intro c hc
    obtain ⟨m, hm, hc⟩ := List.mem_flatMap.mp hc
    have hword : m.2.word.all isNameChar = true := by cases m.2 <;> decide
    rcases List.mem_append.mp hc with hc | hc
    · exact List.all_eq_true.mp (htext m.1 (h.joined m hm)) c hc
    · exact List.all_eq_true.mp hword c hc
  rw [text, List.all_append, List.all_append, hjoined, htext p.last h.last, ht]
  rfl

end Predicate.Chain

namespace Grammar

variable {g : Grammar} {s : Schema} {verb t rest : Text} {subject : Subject} {w : LimitWord}

/-- A verb consists of name characters. -/
theorem all_isNameChar_verb (hv : verb ∈ g.verbs) : verb.all isNameChar = true := by
  have h := g.isVerb verb hv
  cases verb with
  | nil => rfl
  | cons c v =>
    rw [Dialect.isVerb, Bool.and_eq_true] at h
    apply List.all_eq_true.mpr
    intro d hd
    rw [isNameChar, List.all_eq_true.mp h.2 d hd, Bool.true_or]

/-- A verb is not empty. -/
theorem verb_ne_nil (hv : verb ∈ g.verbs) : verb ≠ [] := by
  rintro rfl
  exact Bool.false_ne_true (g.isVerb [] hv)

/-- A verb can be read in front of a text that opens and begins with no digit. -/
theorem read?_verb_append (hv : verb ∈ g.verbs) (ht : Opens t)
    (hd : ∀ c ∈ t.head?, c.isDigit = false) : Keyword.read? verb (verb ++ t) = some t := by
  refine Keyword.read?_eq_some_iff.mpr ⟨rfl, ?_⟩
  cases hl : verb.getLast? with
  | none => rfl
  | some b =>
    have hb : b.isAlphanum = true := by
      have h := g.isVerb verb hv
      have hm := List.mem_of_getLast? hl
      cases verb with
      | nil => cases hm
      | cons c v =>
        rw [Dialect.isVerb, Bool.and_eq_true] at h
        exact List.all_eq_true.mp h.2 b hm
    cases t with
    | nil => rfl
    | cons c t =>
      have hc : c.isLower = false := opens_cons.mp ht
      have hc' : c.isDigit = false := hd c rfl
      have hne : b ≠ '_' := by
        rintro rfl
        cases hb
      simp [isSeam, hc, hc', hne]

/-- Where no verb is the beginning of another, a verb that can be read is the longest one. -/
theorem IsPrefixFree.readLongest?_of_read? (hg : g.IsPrefixFree) (hv : verb ∈ g.verbs)
    (hr : Keyword.read? verb t = some rest) :
    Keyword.readLongest? id g.verbs t = some (verb, rest) := by
  refine longest?_eq_some_of_unique hv hr fun v hv' r hr' ↦ ?_
  have hverb : verb <+: t := ⟨rest, (Keyword.read?_eq_some_iff.mp hr).1.symm⟩
  have hpre : v <+: t := ⟨r, (Keyword.read?_eq_some_iff.mp hr').1.symm⟩
  rcases List.prefix_or_prefix_of_prefix hpre hverb with h | h
  · exact hg v hv' verb hv h
  · exact (hg verb hv v hv' h).symm

/-- Where no verb is the beginning of another, a verb is read wherever it can be. -/
theorem IsPrefixFree.readLongest?_verb_append (hg : g.IsPrefixFree) (hv : verb ∈ g.verbs)
    (ht : Opens t) (hd : ∀ c ∈ t.head?, c.isDigit = false) :
    Keyword.readLongest? id g.verbs (verb ++ t) = some (verb, t) :=
  hg.readLongest?_of_read? hv (read?_verb_append hv ht hd)

/-- A verb with a subject behind it is read as far as it goes. -/
theorem read_subject (hg : g.IsPrefixFree) (hs : s.IsSeparable) (hv : verb ∈ g.verbs)
    (hb : subject.IsBounded) (hp : ∀ p, subject.property = some p → p ∈ s.properties) :
    g.read s (verb ++ subject.text w) =
      .ok ⟨verb ++ subject.text w, ⟨some verb, subject, [], .absent⟩, [.missingBy],
        subject.breakOff⟩ := by
  have hall : (verb ++ subject.text w).all isNameChar = true := by
    rw [List.all_append, all_isNameChar_verb hv, Subject.all_isNameChar_text hp]
    rfl
  have hopen := Subject.opens_text_append (w := w) hp opens_nil
  have hdigit := Subject.isDigit_head_text_append (w := w) (t := []) hs hp
    fun c hc ↦ absurd hc (Option.not_mem_none c)
  rw [List.append_nil] at hopen hdigit
  rw [read_of_verb hall (hg.readLongest?_verb_append hv hopen hdigit)]
  simp only [readBehind, Subject.read_text hs hb hp]

section Chain

variable {p : Predicate.Chain} (hg : g.IsPrefixFree) (hs : s.IsSeparable) (hv : verb ∈ g.verbs)
  (hb : subject.IsBounded) (hp : ∀ q, subject.property = some q → q ∈ s.properties)
  (hw : p.IsWritten s) (hall : p.tail.all isNameChar = true)
  (hc : Keyword.count Word.introducer p.tail ≤ 1)

include hg hs hv hp hw hall in
private theorem read_chain :
    g.read s (verb ++ (subject.text w ++ (Word.introducer ++ p.text))) =
      g.readBehind s (verb ++ (subject.text w ++ (Word.introducer ++ p.text))) verb
        (subject.text w ++ (Word.introducer ++ p.text)) := by
  have hopen := Word.opens_introducer_append p.text
  have hdigit := Word.isDigit_head_introducer_append p.text
  have hname : (verb ++ (subject.text w ++ (Word.introducer ++ p.text))).all isNameChar = true := by
    have hword : Word.introducer.all isNameChar = true := by decide
    rw [List.all_append, List.all_append, List.all_append, all_isNameChar_verb hv,
      Subject.all_isNameChar_text hp, hword, hw.isSparse.all_isNameChar hall]
    rfl
  exact read_of_verb hname (hg.readLongest?_verb_append hv (Subject.opens_text_append hp hopen)
    (Subject.isDigit_head_text_append hs hp hdigit))

include hg hs hv hb hp hw hall hc

/-- A verb, a subject and a written chain that breaks off are read as far as they go. -/
theorem read_chain_of_stop {edge : Edge} (hn : Predicate.next s p = .stop edge) :
    g.read s (verb ++ (subject.text w ++ (Word.introducer ++ p.text))) =
      .ok ⟨verb ++ (subject.text w ++ (Word.introducer ++ p.text)),
        ⟨some verb, subject, Predicate.ofChain s p, .absent⟩, Predicate.endDefects p, edge⟩ := by
  rw [read_chain hg hs hv hp hw hall]
  simp only [readBehind, Subject.read_text_append hs hb hp hw.opens_text,
    Predicate.read_text hs hw hc, hn, List.nil_append]

/-- Behind a verb, a subject and a written chain goes on what follows the criteria. -/
theorem read_chain_of_resume {rest : Text} {closing : Closing} {defects : List Defect}
    {edge : Edge} (hn : Predicate.next s p = .resume rest)
    (hclosing : Closing.read g.missingDirection s rest = (closing, defects, edge)) :
    g.read s (verb ++ (subject.text w ++ (Word.introducer ++ p.text))) =
      .ok ⟨verb ++ (subject.text w ++ (Word.introducer ++ p.text)),
        ⟨some verb, subject, Predicate.ofChain s p, closing⟩, Predicate.endDefects p ++ defects,
        edge⟩ := by
  rw [read_chain hg hs hv hp hw hall]
  simp only [readBehind, Subject.read_text_append hs hb hp hw.opens_text,
    Predicate.read_text hs hw hc, hn, hclosing, List.nil_append]

end Chain

end Grammar

end QueryNames
