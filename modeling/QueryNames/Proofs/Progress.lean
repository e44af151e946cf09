import QueryNames.Completion.Reachable
import QueryNames.Proofs.Growth
import QueryNames.Proofs.ValidName

/-!
# Completion never leads into a dead end

The picks from the text of a proper draft are the ways in which the draft grows. So every text that
completion reaches is the text of a proper draft: it is read, nothing in it is wrong, at most one
part is missing, and a valid name is at most three picks away.
-/

namespace QueryNames

open Text

namespace Defect

/-- Whether a defect says that something is missing at the end of a name. -/
def isGap : Defect → Bool
  | missingVerb | missingBy | emptyPredicate | danglingConjunction _ | emptyOrder
  | missingDirection _ => true
  | invalidLimit _ | unknownSubject _ | unknownProperty _ | unknownOperator _ _
  | repeatedAllIgnoreCase | unexpectedText _ | unknownOrderProperty _ => false

end Defect

/-- At most `n` picks lead from a text to a valid name. -/
def IsNear (g : Grammar) (s : Schema) : Nat → Text → Prop
  | 0, t => g.accepts s t = true
  | n + 1, t => IsNear g s n t ∨ ∃ u, Pick g s t u ∧ IsNear g s n u

namespace OrderItem

/-- Where every sort key but the last has the direction it needs, only the last can have a
defect. -/
theorem filterMap_defect?_concat {policy : DirectionPolicy} {items : List OrderItem} {i : OrderItem}
    (h : policy = .reject → ∀ j ∈ items, j.direction.isSome) :
    (items ++ [i]).filterMap (defect? policy) = (i.defect? policy).toList := by
  have hnone : items.filterMap (defect? policy) = [] := by
    apply List.filterMap_eq_nil_iff.mpr
    intro j hj
    unfold defect?
    split
    · next hdir =>
      have := h rfl j hj
      rw [hdir] at this
      cases this
    · rfl
  rw [List.filterMap_append, hnone, List.nil_append]
  cases hi : i.defect? policy with
  | none => exact List.filterMap_cons_none hi
  | some x => exact List.filterMap_cons_some hi

end OrderItem

/-- Where the whole text has been read, an option extends it by a word of the place or to a verb, or
is a valid name already. -/
theorem Reading.mem_options_iff {g : Grammar} {s : Schema} {r : Reading} {t : Text}
    (hr : r.edge.residue = []) :
    t ∈ r.options g s ↔
      (∃ w ∈ r.edge.place.words g s, t = r.source ++ w) ∨
        (t ∈ g.verbs ∧ r.source.length < t.length ∧ r.source <+: t) ∨
          r.isValid = true ∧ t = r.source := by
  have hword : ∀ w : Text, [] <+: w := fun w ↦ List.nil_prefix
  rw [mem_options_iff_exists]
  simp only [hr, List.append_nil, hword, true_and, exists_eq_left']

namespace Draft

variable {g : Grammar} {s : Schema} {d d' : Draft} {t u : Text}

/-- A proper draft consists of name characters. -/
theorem IsProper.all_isNameChar_text (hg : g.IsPrefixFree) (hs : s.IsSeparable)
    (h : d.IsProper g s) : d.text.all isNameChar = true :=
  Grammar.all_isNameChar_of_read (read_text hg hs h)

/-- A proper draft is a valid name exactly when nothing is missing in it. -/
theorem IsProper.accepts_iff (hg : g.IsPrefixFree) (hs : s.IsSeparable) (h : d.IsProper g s) :
    g.accepts s d.text = true ↔ d.defects g = [] := by
  rw [Grammar.accepts, read_text hg hs h]
  exact List.isEmpty_iff

private theorem exists_word_of_verb (hg : g.IsPrefixFree) (h : d.IsProper g s) {v : Text}
    (hv : v ∈ g.verbs) (hlt : d.text.length < v.length) (hpre : d.text <+: v) :
    ∃ w ∈ (d.place s).words g s, v = d.text ++ w := by
  have key : ∀ verb ∈ g.verbs, ¬verb <+: d.text := by
    intro verb hverb hp
    obtain rfl := hg verb hverb v hv (hp.trans hpre)
    have := hp.length_le
    omega
  cases d with
  | blank => exact ⟨v, hv, rfl⟩
  | heading h' => exact absurd (List.prefix_append _ _) (key h'.verb h.verb_mem)
  | body h' b =>
    have hp : h'.verb <+: h'.text := List.prefix_append _ _
    exact absurd (hp.trans (List.prefix_append _ _)) (key h'.verb h.1.verb_mem)

/-- The options of a proper draft extend it by a word of its place. A draft that is a valid name is
an option itself. -/
theorem IsProper.mem_options_iff (hg : g.IsPrefixFree) (h : d.IsProper g s) :
    t ∈ (d.reading g s).options g s ↔
      (∃ w ∈ (d.place s).words g s, t = d.text ++ w) ∨ d.defects g = [] ∧ t = d.text := by
  rw [Reading.mem_options_iff rfl]
  have hvalid : (d.reading g s).isValid = true ↔ d.defects g = [] := List.isEmpty_iff
  constructor
  · intro hm
    rcases hm with hw | ⟨hv, hlt, hpre⟩ | ⟨hv, heq⟩
    · exact Or.inl hw
    · exact Or.inl (exists_word_of_verb hg h hv hlt hpre)
    · exact Or.inr ⟨hvalid.mp hv, heq⟩
  · intro hm
    rcases hm with hw | ⟨hnone, heq⟩
    · exact Or.inl hw
    · exact Or.inr (Or.inr ⟨hvalid.mpr hnone, heq⟩)

private theorem not_numberSlot_suffix (h : t.all isNameChar = true) : ¬Word.numberSlot <:+ t := by
  intro hsuffix
  have hmem : '[' ∈ t := hsuffix.subset (by decide)
  have := List.all_eq_true.mp h '[' hmem
  revert this
  decide

private theorem Grows.all_isNameChar_append (hg : g.IsPrefixFree) (hs : s.IsSeparable)
    (h : Grows g s d t d') (hd : d.IsProper g s) : (d.text ++ t).all isNameChar = true := by
  rw [← h.text_eq]
  exact (h.isProper hs hd).all_isNameChar_text hg hs

/-- The options of the text of a proper draft are those of its reading. -/
theorem IsProper.options_text (hg : g.IsPrefixFree) (hs : s.IsSeparable) (h : d.IsProper g s) :
    g.options s d.text = .ok ((d.reading g s).options g s) :=
  Grammar.options_of_read (read_text hg hs h)

private theorem grows_of_pick (hg : g.IsPrefixFree) (hs : s.IsSeparable) (h : d.IsProper g s)
    (hp : Pick g s d.text u) :
    d.defects g = [] ∧ u = d.text ∨ ∃ t d', Grows g s d t d' ∧ d'.text = u := by
  have hoptions := h.options_text hg hs
  cases hp with
  | word ho hm hslot =>
    obtain rfl := Except.ok.inj (ho.symm.trans hoptions)
    cases (h.mem_options_iff hg).mp hm with
    | inr hself => exact Or.inl hself
    | inl hword =>
      obtain ⟨w, hw, rfl⟩ := hword
      cases exists_grows h hw with
      | inl hd' =>
        obtain ⟨d', hd'⟩ := hd'
        exact Or.inr ⟨w, d', hd', hd'.text_eq⟩
      | inr hnumber =>
        rw [hnumber.1] at hslot
        exact absurd (List.suffix_append _ _) hslot
  | @number stem _ n ho hm hpos hmax =>
    obtain rfl := Except.ok.inj (ho.symm.trans hoptions)
    -- only the placeholder itself can be the word that ends the option
    cases (h.mem_options_iff hg).mp hm with
    | inr hself =>
      have hall := h.all_isNameChar_text hg hs
      rw [← hself.2] at hall
      exact absurd (List.suffix_append _ _) (not_numberSlot_suffix hall)
    | inl hword =>
      obtain ⟨w, hw, heq⟩ := hword
      cases exists_grows h hw with
      | inl hd' =>
        obtain ⟨d', hd'⟩ := hd'
        have hall := hd'.all_isNameChar_append hg hs h
        rw [← heq] at hall
        exact absurd (List.suffix_append _ _) (not_numberSlot_suffix hall)
      | inr hnumber =>
        rw [hnumber.1] at heq
        obtain rfl := List.append_cancel_right heq
        obtain ⟨d', hd'⟩ := hnumber.2 n hpos hmax
        exact Or.inr ⟨_, d', hd', hd'.text_eq⟩

/-- What a proper draft grows into can be picked. -/
theorem Grows.pick (hg : g.IsPrefixFree) (hs : s.IsSeparable) (h : Grows g s d t d')
    (hd : d.IsProper g s) : Pick g s d.text d'.text := by
  have hoptions := hd.options_text hg hs
  rw [h.text_eq]
  cases h.mem_words with
  | inl hw =>
    exact .word hoptions ((hd.mem_options_iff hg).mpr (Or.inl ⟨t, hw, rfl⟩))
      (not_numberSlot_suffix (h.all_isNameChar_append hg hs hd))
  | inr hnumber =>
    obtain ⟨hw, n, hpos, hmax, rfl⟩ := hnumber
    exact .number hoptions ((hd.mem_options_iff hg).mpr (Or.inl ⟨_, hw, rfl⟩)) hpos hmax

/-- A proper draft that is a valid name can be picked from itself. -/
theorem IsProper.pick_self (hg : g.IsPrefixFree) (hs : s.IsSeparable) (h : d.IsProper g s)
    (hnone : d.defects g = []) : Pick g s d.text d.text :=
  .word (h.options_text hg hs) ((h.mem_options_iff hg).mpr (Or.inr ⟨hnone, rfl⟩))
    (not_numberSlot_suffix (h.all_isNameChar_text hg hs))

/-- The picks from a proper draft are the ways in which it grows, and a valid name can be picked
from itself. -/
theorem IsProper.pick_iff (hg : g.IsPrefixFree) (hs : s.IsSeparable) (h : d.IsProper g s) :
    Pick g s d.text u ↔
      d.defects g = [] ∧ u = d.text ∨ ∃ t d', Grows g s d t d' ∧ d'.text = u := by
  constructor
  · exact grows_of_pick hg hs h
  · intro hp
    rcases hp with ⟨hnone, rfl⟩ | ⟨w, d', hd', rfl⟩
    · exact h.pick_self hg hs hnone
    · exact hd'.pick hg hs h

/-- Every text that completion reaches is the text of a proper draft. -/
theorem exists_of_reachable (hg : g.IsPrefixFree) (hs : s.IsSeparable) (h : Reachable g s t) :
    ∃ d : Draft, d.IsProper g s ∧ d.text = t := by
  induction h with
  | empty => exact ⟨blank, trivial, rfl⟩
  | pick _ hp ih =>
    obtain ⟨d, hd, rfl⟩ := ih
    cases (hd.pick_iff hg hs).mp hp with
    | inl hself => exact ⟨d, hd, hself.2.symm⟩
    | inr hgrows =>
      obtain ⟨w, d', hd', rfl⟩ := hgrows
      exact ⟨d', hd'.isProper hs hd, rfl⟩

private theorem Grows.isNear (hg : g.IsPrefixFree) (hs : s.IsSeparable) {n : Nat}
    (h : Grows g s d t d') (hd : d.IsProper g s) (hnear : IsNear g s n d'.text) :
    IsNear g s (n + 1) d.text :=
  Or.inr ⟨d'.text, h.pick hg hs hd, hnear⟩

private theorem IsProper.isNear (hg : g.IsPrefixFree) (hs : s.IsSeparable) (h : d.IsProper g s)
    (hnone : d.defects g = []) : IsNear g s 0 d.text :=
  (h.accepts_iff hg hs).mpr hnone

section Body

variable {h : Heading} {joined : List (Text × Conjunction)} {last : Text} {ending : Ending}
  {m : Option CaseMarker} {items : List OrderItem} {i : OrderItem}

private theorem last_ne_nil (hd : (body h ⟨joined, last, ending⟩).IsProper g s)
    (he : ending ≠ .absent) : last ≠ [] :=
  (hd.2.isOffered_of_ending he).isWritten.ne_nil

private theorem defects_of_last_ne_nil (hl : last ≠ []) :
    (body h ⟨joined, last, ending⟩).defects g = ending.defects g.missingDirection := by
  have hend : Predicate.endDefects (Body.chain ⟨joined, last, ending⟩) = [] := if_neg hl
  rw [defects, hend, List.nil_append]

private theorem defects_marker {k : CaseMarker}
    (hd : (body h ⟨joined, last, .marker k⟩).IsProper g s) :
    (body h ⟨joined, last, .marker k⟩).defects g = [] := by
  refine defects_of_last_ne_nil (last_ne_nil hd fun he ↦ ?_)
  cases he

private theorem defects_order_nil (hd : (body h ⟨joined, last, .order m []⟩).IsProper g s) :
    (body h ⟨joined, last, .order m []⟩).defects g = [.emptyOrder] := by
  refine defects_of_last_ne_nil (last_ne_nil hd fun he ↦ ?_)
  cases he

private theorem defects_order_concat
    (hd : (body h ⟨joined, last, .order m (items ++ [i])⟩).IsProper g s) :
    (body h ⟨joined, last, .order m (items ++ [i])⟩).defects g =
      (i.defect? g.missingDirection).toList := by
  have hl : last ≠ [] := by
    apply last_ne_nil hd
    intro he
    cases he
  have hdirs := hd.2.ending.direction_isSome
  rw [Ending.items, List.dropLast_concat] at hdirs
  have hitems : OrderItem.endDefects (items ++ [i]) [] = [] := by simp [OrderItem.endDefects]
  rw [defects_of_last_ne_nil hl, Ending.defects, OrderItem.filterMap_defect?_concat hdirs, hitems,
    List.append_nil]

private theorem isNear_criterion (hg : g.IsPrefixFree) (hs : s.IsSeparable)
    (hne : s.properties ≠ []) (hd : (body h ⟨joined, [], .absent⟩).IsProper g s) :
    IsNear g s 1 (body h ⟨joined, [], .absent⟩).text := by
  obtain ⟨p, hp⟩ := List.exists_mem_of_ne_nil _ hne
  have hgrows : Grows g s (body h ⟨joined, [], .absent⟩) p.identifier
      (body h ⟨joined, p.identifier, .absent⟩) := .criterion hp
  refine hgrows.isNear hg hs hd ((hgrows.isProper hs hd).isNear hg hs ?_)
  exact defects_of_last_ne_nil (s.named p hp).identifier_ne_nil

private theorem isNear_order_concat (hg : g.IsPrefixFree) (hs : s.IsSeparable)
    (hd : (body h ⟨joined, last, .order m (items ++ [i])⟩).IsProper g s) :
    IsNear g s 1 (body h ⟨joined, last, .order m (items ++ [i])⟩).text := by
  obtain ⟨p, direction⟩ := i
  have hdirected : ∀ k, OrderItem.defect? g.missingDirection ⟨p, some k⟩ = none := by
    intro k
    unfold OrderItem.defect?
    cases g.missingDirection <;> rfl
  cases direction with
  | some k =>
    refine Or.inl (hd.isNear hg hs ?_)
    rw [defects_order_concat hd, hdirected]
    rfl
  | none =>
    have hgrows : Grows g s (body h ⟨joined, last, .order m (items ++ [⟨p, none⟩])⟩)
        Direction.ascending.word
        (body h ⟨joined, last, .order m (items ++ [⟨p, some .ascending⟩])⟩) := .direction
    have hd' := hgrows.isProper hs hd
    refine hgrows.isNear hg hs hd (hd'.isNear hg hs ?_)
    rw [defects_order_concat hd', hdirected]
    rfl

private theorem isNear_order (hg : g.IsPrefixFree) (hs : s.IsSeparable) (hne : s.properties ≠ [])
    (hd : (body h ⟨joined, last, .order m items⟩).IsProper g s) :
    IsNear g s 2 (body h ⟨joined, last, .order m items⟩).text := by
  cases items using List.reverseRec with
  | append_singleton init i => exact Or.inl (isNear_order_concat hg hs hd)
  | nil =>
    obtain ⟨p, hp⟩ := List.exists_mem_of_ne_nil _ hne
    have hgrows : Grows g s (body h ⟨joined, last, .order m []⟩) p.identifier
        (body h ⟨joined, last, .order m ([] ++ [⟨p, none⟩])⟩) :=
      .orderProperty hp fun _ ↦ List.forall_mem_nil _
    exact hgrows.isNear hg hs hd (isNear_order_concat hg hs (hgrows.isProper hs hd))

end Body

/-- In a proper draft at most one part is missing, and nothing is wrong. -/
theorem IsProper.defects_eq (h : d.IsProper g s) :
    d.defects g = [] ∨ ∃ x, d.defects g = [x] ∧ x.isGap = true := by
  cases d with
  | blank => exact Or.inr ⟨_, rfl, rfl⟩
  | heading h' => exact Or.inr ⟨_, rfl, rfl⟩
  | body h' b =>
    obtain ⟨joined, last, ending⟩ := b
    cases ending with
    | absent =>
      by_cases hl : last = []
      · right
        have hl' : (Body.chain ⟨joined, last, .absent⟩).last = [] := hl
        rw [defects, Ending.defects, List.append_nil, Predicate.endDefects, if_pos hl']
        cases (Body.chain ⟨joined, last, .absent⟩).lastConjunction? with
        | none => exact ⟨_, rfl, rfl⟩
        | some k => exact ⟨_, rfl, rfl⟩
      · exact Or.inl (defects_of_last_ne_nil hl)
    | marker m => exact Or.inl (defects_marker h)
    | order m items =>
      cases items using List.reverseRec with
      | nil => exact Or.inr ⟨_, defects_order_nil h, rfl⟩
      | append_singleton init i =>
        rw [defects_order_concat h]
        unfold OrderItem.defect?
        split
        · exact Or.inr ⟨_, rfl, rfl⟩
        · exact Or.inl rfl

/-- From a proper draft a valid name is at most three picks away. -/
theorem IsProper.isNear_three (hg : g.IsPrefixFree) (hs : s.IsSeparable) (hne : s.properties ≠ [])
    (h : d.IsProper g s) : IsNear g s 3 d.text := by
  have hheading : ∀ h' : Heading, (heading h').IsProper g s → IsNear g s 2 (heading h').text := by
    intro h' hd
    have hgrows : Grows g s (heading h') Word.introducer (body h' ⟨[], [], .absent⟩) := .introducer
    exact hgrows.isNear hg hs hd (isNear_criterion hg hs hne (hgrows.isProper hs hd))
  cases d with
  | blank =>
    obtain ⟨v, hv⟩ := List.exists_mem_of_ne_nil _ g.verbs_ne_nil
    have hgrows : Grows g s blank v (heading ⟨v, .top, .plain⟩) := .verb hv
    exact hgrows.isNear hg hs h (hheading _ (hgrows.isProper hs h))
  | heading h' => exact Or.inl (hheading h' h)
  | body h' b =>
    obtain ⟨joined, last, ending⟩ := b
    cases ending with
    | absent =>
      by_cases hl : last = []
      · subst hl
        exact Or.inl (Or.inl (isNear_criterion hg hs hne h))
      · exact Or.inl (Or.inl (Or.inl (h.isNear hg hs (defects_of_last_ne_nil hl))))
    | marker m => exact Or.inl (Or.inl (Or.inl (h.isNear hg hs (defects_marker h))))
    | order m items => exact Or.inl (isNear_order hg hs hne h)

/-- A proper draft from which a valid name can be reached has options. -/
theorem IsProper.options_ne_nil (hg : g.IsPrefixFree) (hs : s.IsSeparable) (h : d.IsProper g s)
    {n : Nat} (hnear : IsNear g s n d.text) : (d.reading g s).options g s ≠ [] := by
  induction n with
  | zero =>
    have hnone := (h.accepts_iff hg hs).mp hnear
    exact List.ne_nil_of_mem ((h.mem_options_iff hg).mpr (Or.inr ⟨hnone, rfl⟩))
  | succ n ih =>
    cases hnear with
    | inl hnear => exact ih hnear
    | inr hpick =>
      obtain ⟨u, hp, -⟩ := hpick
      have hoptions := h.options_text hg hs
      cases hp with
      | word ho hm _ => exact Except.ok.inj (ho.symm.trans hoptions) ▸ List.ne_nil_of_mem hm
      | number ho hm _ _ => exact Except.ok.inj (ho.symm.trans hoptions) ▸ List.ne_nil_of_mem hm

/-- The criteria of a proper draft are complete, and their operators suit their properties. -/
theorem IsProper.criteria (h : d.IsProper g s) :
    ∀ c ∈ (d.query s).predicate.criteria, c.IsDeclared s ∧ c.IsSuited := by
  cases d with
  | blank => exact List.forall_mem_nil _
  | heading h' => exact List.forall_mem_nil _
  | body h' b => exact h.2.criteria

/-- What a reachable draft grows into is reachable. -/
theorem Grows.reachable (hg : g.IsPrefixFree) (hs : s.IsSeparable) (h : Grows g s d t d')
    (hd : d.IsProper g s ∧ Reachable g s d.text) :
    d'.IsProper g s ∧ Reachable g s d'.text :=
  ⟨h.isProper hs hd.1, hd.2.pick (h.pick hg hs hd.1)⟩

end Draft

/-- Completion never leads into a dead end. A text that it reaches is read, its criteria are
complete and their operators suit their properties, at most one part is missing and nothing is
wrong, there is something to pick, and a valid name is at most three picks away. -/
theorem Reachable.exists_read {g : Grammar} {s : Schema} {t : Text} (hg : g.IsPrefixFree)
    (hs : s.IsSeparable) (hne : s.properties ≠ []) (ht : Reachable g s t) :
    ∃ r, g.read s t = .ok r ∧
      (∀ c ∈ r.query.predicate.criteria, c.IsDeclared s ∧ c.IsSuited) ∧
      (r.defects = [] ∨ ∃ x, r.defects = [x] ∧ x.isGap = true) ∧
      r.options g s ≠ [] ∧ IsNear g s 3 t := by
  obtain ⟨d, hd, rfl⟩ := Draft.exists_of_reachable hg hs ht
  have hnear := hd.isNear_three hg hs hne
  exact ⟨d.reading g s, Draft.read_text hg hs hd, hd.criteria, hd.defects_eq,
    hd.options_ne_nil hg hs hnear, hnear⟩

/-- In a small schema completion leads to a name in which `Or` has become `OrderBy`. -/
theorem Reachable.exists_read_sample :
    Grammar.standard.IsPrefixFree ∧ Schema.sample.IsSeparable ∧ Schema.sample.properties ≠ [] ∧
      Reachable .standard .sample "findTop5ByTextIsOrderBy".toList ∧
      ∃ r, Grammar.standard.read .sample "findTop5ByTextIsOrderBy".toList = .ok r ∧
        (∀ c ∈ r.query.predicate.criteria, c.IsDeclared .sample ∧ c.IsSuited) ∧
        (r.defects = [] ∨ ∃ x, r.defects = [x] ∧ x.isGap = true) ∧
        r.options .standard .sample ≠ [] ∧
        IsNear .standard .sample 3 "findTop5ByTextIsOrderBy".toList := by
  have hg : Grammar.standard.IsPrefixFree := by decide
  have hs := Schema.isSeparable_sample
  have hne : Schema.sample.properties ≠ [] := by decide
  have hblank : Draft.blank.IsProper .standard .sample ∧
      Reachable .standard .sample Draft.blank.text := ⟨trivial, .empty⟩
  have hverb := Draft.Grows.reachable hg hs (.verb (v := "find".toList) (by decide)) hblank
  have htop := Draft.Grows.reachable hg hs (.limit (u := .top)) hverb
  have hfive := Draft.Grows.reachable hg hs (.number (n := 5) (by decide) (by decide)) htop
  have hby := Draft.Grows.reachable hg hs .introducer hfive
  have htext := Draft.Grows.reachable hg hs
    (.criterion (p := ⟨"text".toList, .string⟩) (by decide)) hby
  have his := Draft.Grows.reachable hg hs
    (.keyword (k := Word.group) (by decide) (by decide +kernel)) htext
  have hor := Draft.Grows.reachable hg hs (.conjunction (k := .or) (by decide)) his
  have horder := Draft.Grows.reachable hg hs (.orderFromOr rfl) hor
  have ht : Reachable .standard .sample "findTop5ByTextIsOrderBy".toList := horder.2
  exact ⟨hg, hs, hne, ht, Reachable.exists_read hg hs hne ht⟩

end QueryNames
