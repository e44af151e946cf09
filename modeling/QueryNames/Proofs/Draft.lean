import QueryNames.Completion
import QueryNames.Proofs.WrittenName

/-!
# Drafts

A draft is a name as far as it has been put together word by word: nothing, a verb with the subject
so far, or criteria with what stands behind them so far. Over a separable schema and a prefix-free
grammar a draft is read as what it was put together from, and its edge is the place where the next
word belongs.
-/

namespace QueryNames

open Text

/-- The verb and the subject of a draft, with the limit word that was picked. -/
structure Heading where
  verb : Text
  limitWord : LimitWord
  subject : Subject
deriving DecidableEq, Repr

/-- What a draft has behind the criteria. -/
inductive Ending where
  | absent
  /-- A marker for all criteria with no order clause yet. -/
  | marker (marker : CaseMarker)
  | order (marker : Option CaseMarker) (items : List OrderItem)
deriving DecidableEq, Repr

/-- What a draft has behind `By`. -/
structure Body where
  /-- The texts of criteria that a conjunction follows. -/
  joined : List (Text × Conjunction)
  /-- The text of the last criterion, empty if it is still missing. -/
  last : Text
  ending : Ending
deriving DecidableEq, Repr

/-- A name as far as it has been put together. -/
inductive Draft where
  | blank
  | heading (heading : Heading)
  | body (heading : Heading) (body : Body)
deriving DecidableEq, Repr

namespace Heading

/-- A grammar and a schema allow the words of a heading. -/
structure IsProper (g : Grammar) (s : Schema) (h : Heading) : Prop where
  verb_mem : h.verb ∈ g.verbs
  isBounded : h.subject.IsBounded
  property_mem : ∀ p, h.subject.property = some p → p ∈ s.properties

/-- The text of a heading. -/
def text (h : Heading) : Text := h.verb ++ h.subject.text h.limitWord

end Heading

namespace Criterion

/-- The operator of a criterion suits its property. -/
def IsSuited (c : Criterion) : Prop := ∀ p ∈ c.property, c.operator.suits p.category = true

/-- A text is read as a criterion that it writes in full and whose operator suits its property. -/
structure IsOffered (s : Schema) (t : Text) : Prop where
  isWritten : (ofText s t).IsWritten s t
  isSuited : (ofText s t).IsSuited

/-- A text that writes a criterion with a suitable operator is read as it. -/
theorem IsWritten.isOffered {s : Schema} {c : Criterion} {t : Text} (hs : s.IsSeparable)
    (h : c.IsWritten s t) (hc : c.IsSuited) : IsOffered s t := by
  have heq := h.ofText_eq hs
  exact ⟨heq.symm ▸ h, heq.symm ▸ hc⟩

end Criterion

namespace Ending

/-- The text behind the criteria. -/
def text : Ending → Text
  | absent => []
  | marker m => m.allWord
  | order m items => (m.map CaseMarker.allWord).getD [] ++ OrderItem.clause items

/-- What the text behind the criteria says. -/
def closing : Ending → Closing
  | absent => .absent
  | marker m => ⟨some m, []⟩
  | order m items => ⟨m, items⟩

/-- The sort keys behind the criteria. -/
def items : Ending → List OrderItem
  | absent | marker _ => []
  | order _ items => items

/-- What is missing behind the criteria. -/
def defects (policy : DirectionPolicy) : Ending → List Defect
  | absent | marker _ => []
  | order _ items => items.filterMap (OrderItem.defect? policy) ++ OrderItem.endDefects items []

/-- The sort keys are declared, and none but the last lacks a direction that it needs. -/
structure IsProper (g : Grammar) (s : Schema) (e : Ending) : Prop where
  property_mem : ∀ i ∈ e.items, i.property ∈ s.properties
  direction_isSome : g.missingDirection = .reject → ∀ i ∈ e.items.dropLast, i.direction.isSome

variable {g : Grammar} {s : Schema} {e : Ending}

/-- Without sort keys nothing behind the criteria is improper. -/
theorem isProper_of_items_eq_nil (h : e.items = []) : e.IsProper g s := by
  refine ⟨?_, fun _ ↦ ?_⟩
  · rw [h]
    exact List.forall_mem_nil _
  · rw [h]
    exact List.forall_mem_nil _

/-- One more sort key may follow those that have the directions they need. -/
theorem isProper_order_concat {m : Option CaseMarker} {items : List OrderItem} {p : Property}
    (direction : Option Direction) (hp : p ∈ s.properties)
    (hitems : ∀ i ∈ items, i.property ∈ s.properties)
    (hdirs : g.missingDirection = .reject → ∀ i ∈ items, i.direction.isSome) :
    (order m (items ++ [⟨p, direction⟩])).IsProper g s := by
  refine ⟨fun i hi ↦ ?_, fun hpolicy ↦ ?_⟩
  · cases List.mem_append.mp hi with
    | inl hmem => exact hitems i hmem
    | inr hnew =>
      rw [List.mem_singleton.mp hnew]
      exact hp
  · rw [Ending.items, List.dropLast_concat]
    exact hdirs hpolicy

/-- The text behind the criteria may stand there. -/
theorem IsProper.isTail_text (h : e.IsProper g s) : Predicate.Chain.IsTail e.text := by
  cases e with
  | absent => exact Or.inl rfl
  | marker m => exact Closing.isTail_marker m
  | order m items => exact Closing.isTail_order m h.property_mem

/-- The text behind the criteria consists of name characters. -/
theorem IsProper.all_isNameChar_text (h : e.IsProper g s) : e.text.all isNameChar = true := by
  cases e with
  | absent => rfl
  | marker m => exact CaseMarker.all_isNameChar_getD (some m)
  | order m items => exact Closing.all_isNameChar_order m h.property_mem

/-- The word `By` has at most one place behind the criteria. -/
theorem IsProper.count_introducer_text (hs : s.IsSeparable) (h : e.IsProper g s) :
    Keyword.count Word.introducer e.text ≤ 1 := by
  cases e with
  | absent => exact Nat.zero_le 1
  | marker m =>
    have hzero : Keyword.count Word.introducer m.allWord = 0 :=
      CaseMarker.count_introducer_getD (some m)
    rw [text, hzero]
    exact Nat.zero_le 1
  | order m items => exact Nat.le_of_eq (Closing.count_introducer_order hs m h.property_mem)

/-- Nothing is written behind the criteria only if there is nothing. -/
theorem text_eq_nil_iff : e.text = [] ↔ e = absent := by
  cases e with
  | absent => exact iff_of_true rfl rfl
  | marker m => simp [text, m.allWord_ne_nil]
  | order m items =>
    refine iff_of_false (fun h ↦ ?_) fun h ↦ ?_
    · exact absurd (List.append_eq_nil_iff.mp h).2 (List.cons_ne_nil _ _)
    · cases h

end Ending

namespace Body

/-- The chain of a body. -/
def chain (b : Body) : Predicate.Chain := ⟨b.joined, b.last, b.ending.text⟩

/-- All criteria of a body are offered, and only the last one may be missing at the end. -/
structure IsProper (g : Grammar) (s : Schema) (b : Body) : Prop where
  joined : ∀ m ∈ b.joined, Criterion.IsOffered s m.1
  last : Criterion.IsOffered s b.last ∨ b.last = [] ∧ b.ending = .absent
  ending : b.ending.IsProper g s

/-- Where the next word belongs. -/
def place (s : Schema) (b : Body) : Place :=
  match b.ending with
  | .absent =>
    if b.last = [] then .criterionStart (b.chain.lastConjunction? == some .or)
    else .criterion (Criterion.ofText s b.last)
  | .marker _ => .allIgnoreCase
  | .order _ items => OrderItem.placeAfter items

variable {g : Grammar} {s : Schema} {b : Body}

/-- The chain of a proper body is written in full. -/
theorem IsProper.isWritten (h : b.IsProper g s) : b.chain.IsWritten s := by
  refine ⟨fun m hm ↦ ⟨_, (h.joined m hm).isWritten⟩, ?_, h.ending.isTail_text⟩
  cases h.last with
  | inl hoffered => exact Or.inl ⟨_, hoffered.isWritten⟩
  | inr hmissing => exact Or.inr ⟨hmissing.1, Ending.text_eq_nil_iff.mpr hmissing.2⟩

/-- A last criterion that is not missing is offered. -/
theorem IsProper.isOffered_last (h : b.IsProper g s) (hl : b.last ≠ []) :
    Criterion.IsOffered s b.last := by
  cases h.last with
  | inl hoffered => exact hoffered
  | inr hmissing => exact absurd hmissing.1 hl

/-- A last criterion that something follows is offered. -/
theorem IsProper.isOffered_of_ending (h : b.IsProper g s) (he : b.ending ≠ .absent) :
    Criterion.IsOffered s b.last := by
  cases h.last with
  | inl hoffered => exact hoffered
  | inr hmissing => exact absurd hmissing.2 he

/-- Where nothing follows the criteria of a proper body, the next word belongs to them. -/
theorem IsProper.next_chain (hs : s.IsSeparable) (h : b.IsProper g s) (he : b.ending = .absent) :
    Predicate.next s b.chain = .stop ⟨b.place s, []⟩ := by
  have htail : b.chain.tail = [] := Ending.text_eq_nil_iff.mpr he
  by_cases hl : b.last = []
  · rw [Predicate.next_of_last_eq_nil s htail hl]
    simp only [place, he, hl, if_true]
  · rw [Predicate.next_of_isWritten hs htail (h.isOffered_last hl).isWritten]
    simp only [place, he, if_neg hl]

/-- The criteria of a proper body are complete, and their operators suit their properties. -/
theorem IsProper.criteria (h : b.IsProper g s) :
    ∀ c ∈ (Predicate.ofChain s b.chain).criteria, c.IsDeclared s ∧ c.IsSuited := by
  intro c hc
  rw [Predicate.criteria, Predicate.ofChain, Predicate.flatten_branches, List.mem_append,
    List.map_map, List.mem_map, Option.mem_toList] at hc
  cases hc with
  | inl hjoined =>
    obtain ⟨m, hm, rfl⟩ := hjoined
    have hoffered := h.joined m hm
    exact ⟨hoffered.isWritten.isDeclared, hoffered.isSuited⟩
  | inr hlast =>
    split at hlast
    · cases hlast
    · next hl =>
      have hoffered := h.isOffered_last hl
      rw [← Option.some.inj hlast]
      exact ⟨hoffered.isWritten.isDeclared, hoffered.isSuited⟩

end Body

namespace Draft

/-- The text of a draft. -/
def text : Draft → Text
  | blank => []
  | heading h => h.text
  | body h b => h.text ++ (Word.introducer ++ b.chain.text)

/-- A grammar and a schema allow the words of a draft. -/
def IsProper (g : Grammar) (s : Schema) : Draft → Prop
  | blank => True
  | heading h => h.IsProper g s
  | body h b => h.IsProper g s ∧ b.IsProper g s

/-- What a draft says so far. -/
def query (s : Schema) : Draft → Query
  | blank => .blank
  | heading h => ⟨some h.verb, h.subject, [], .absent⟩
  | body h b => ⟨some h.verb, h.subject, Predicate.ofChain s b.chain, b.ending.closing⟩

/-- What is missing in a draft. -/
def defects (g : Grammar) : Draft → List Defect
  | blank => [.missingVerb]
  | heading _ => [.missingBy]
  | body _ b => Predicate.endDefects b.chain ++ b.ending.defects g.missingDirection

/-- Where the next word of a draft belongs. -/
def place (s : Schema) : Draft → Place
  | blank => .verb
  | heading h => h.subject.breakOff.place
  | body _ b => b.place s

/-- The reading of a draft. -/
def reading (g : Grammar) (s : Schema) (d : Draft) : Reading :=
  ⟨d.text, d.query s, d.defects g, ⟨d.place s, []⟩⟩

variable {g : Grammar} {s : Schema} {d : Draft}

private theorem read_blank : g.read s [] = .ok (blank.reading g s) := by
  have hnone : Keyword.readLongest? id g.verbs [] = none := by
    refine Keyword.readLongest?_eq_none_iff.mpr fun v hv ↦ ?_
    cases hr : Keyword.read? (id v) [] with
    | none => rfl
    | some behind =>
      have heq := (Keyword.read?_eq_some_iff.mp hr).1
      exact absurd (List.append_eq_nil_iff.mp heq.symm).1 (Grammar.verb_ne_nil hv)
  simp only [Grammar.read, List.find?_nil, hnone]
  rfl

private theorem residue_breakOff (subject : Subject) : subject.breakOff.residue = [] := by
  unfold Subject.breakOff
  split <;> rfl

private theorem read_body {h : Heading} {b : Body} (hg : g.IsPrefixFree) (hs : s.IsSeparable)
    (hh : h.IsProper g s) (hb : b.IsProper g s) :
    g.read s (body h b).text = .ok ((body h b).reading g s) := by
  have hwritten := hb.isWritten
  have hall : b.chain.tail.all isNameChar = true := hb.ending.all_isNameChar_text
  have hcount : Keyword.count Word.introducer b.chain.tail ≤ 1 :=
    hb.ending.count_introducer_text hs
  have htext : (body h b).text =
      h.verb ++ (h.subject.text h.limitWord ++ (Word.introducer ++ b.chain.text)) :=
    List.append_assoc _ _ _
  rw [reading, htext]
  obtain ⟨joined, last, ending⟩ := b
  cases ending with
  | absent =>
    have hnext : Predicate.next s (Body.chain ⟨joined, last, .absent⟩) =
        .stop ⟨Body.place s ⟨joined, last, .absent⟩, []⟩ := hb.next_chain hs rfl
    rw [Grammar.read_chain_of_stop hg hs hh.verb_mem hh.isBounded hh.property_mem hwritten hall
      hcount hnext, defects, Ending.defects, List.append_nil]
    rfl
  | marker m =>
    have hnext := Predicate.next_of_tail_ne_nil s (p := Body.chain ⟨joined, last, .marker m⟩)
      m.allWord_ne_nil
    exact Grammar.read_chain_of_resume hg hs hh.verb_mem hh.isBounded hh.property_mem hwritten hall
      hcount hnext (Closing.read_marker m)
  | order m items =>
    have hne : (Ending.order m items).text ≠ [] := by
      intro he
      cases Ending.text_eq_nil_iff.mp he
    have hnext := Predicate.next_of_tail_ne_nil s (p := Body.chain ⟨joined, last, .order m items⟩)
      hne
    exact Grammar.read_chain_of_resume hg hs hh.verb_mem hh.isBounded hh.property_mem hwritten hall
      hcount hnext (Closing.read_order hs m hb.ending.property_mem)

/-- A proper draft is read as what it was put together from. -/
theorem read_text (hg : g.IsPrefixFree) (hs : s.IsSeparable) (h : d.IsProper g s) :
    g.read s d.text = .ok (d.reading g s) := by
  cases d with
  | blank => exact read_blank
  | heading h' =>
    have hedge : h'.subject.breakOff = ⟨h'.subject.breakOff.place, []⟩ := by
      rw [← residue_breakOff h'.subject]
    rw [text, Heading.text,
      Grammar.read_subject hg hs h.verb_mem h.isBounded h.property_mem, hedge]
    rfl
  | body h' b => exact read_body hg hs h.1 h.2

end Draft

end QueryNames
