import QueryNames.Proofs.BrokenCriteria
import QueryNames.Proofs.Lenience
import QueryNames.Proofs.ValidName

/-!
# What the defects account for

Each section of a name adds its own defects and hands them on in order. So the list of defects tells
what is missing in the query: whether there is a verb, whether there are criteria and which of them
are incomplete, whether the name breaks off, and which sort keys have no direction. Nothing is
supposed of the schema or the grammar.
-/

namespace QueryNames

open Text

/-- What a defect is about. -/
inductive DefectKind where
  | verb
  | subject
  | introducer
  | criterion
  /-- A criterion is missing. -/
  | gap
  | closing
  | direction
deriving DecidableEq, Repr

namespace Defect

/-- What a defect is about. -/
def kind : Defect → DefectKind
  | missingVerb => .verb
  | invalidLimit _ | unknownSubject _ => .subject
  | missingBy => .introducer
  | unknownProperty _ | unknownOperator _ _ => .criterion
  | emptyPredicate | danglingConjunction _ => .gap
  | repeatedAllIgnoreCase | unexpectedText _ | emptyOrder | unknownOrderProperty _ => .closing
  | missingDirection _ => .direction

/-- Whether a name with the defect breaks off where more is needed. -/
def breaksOff : Defect → Bool
  | missingBy | danglingConjunction _ => true
  | missingVerb | invalidLimit _ | unknownSubject _ | emptyPredicate | unknownProperty _
  | unknownOperator _ _ | repeatedAllIgnoreCase | unexpectedText _ | emptyOrder
  | unknownOrderProperty _ | missingDirection _ => false

end Defect

namespace Criterion

/-- The defect of a criterion that is not complete. A text without a property is kept as it was
written; of a criterion with one the part that could not be read is kept. -/
def HasDefect (d : Defect) (c : Criterion) : Prop :=
  match c.property with
  | none => ∃ f, d = .unknownProperty f ∧ CaseMarker.cut f = (c.marker, c.residue)
  | some p => d = .unknownOperator p.name c.residue

/-- A criterion is complete exactly when its text has no defect. -/
theorem isUnderstood_ofText (s : Schema) (f : Text) :
    (ofText s f).isUnderstood = (Predicate.defect? s f).isNone := by
  rw [Bool.eq_iff_iff, isUnderstood, Bool.and_eq_true, List.isEmpty_iff, Option.isNone_iff_eq_none,
    Predicate.defect?_eq_none_iff]

/-- A criterion has the defect of its text. -/
theorem hasDefect_ofText {s : Schema} {f : Text} {d : Defect} (h : Predicate.defect? s f = some d) :
    (ofText s f).HasDefect d := by
  rw [HasDefect]
  cases hp : (ofText s f).property with
  | none =>
    simp only [Predicate.defect?, hp] at h
    refine ⟨f, (Option.some.inj h).symm, ?_⟩
    -- without a property the criterion is the text around its marker
    cases hh : s.headProperty? (CaseMarker.cut f).2 with
    | none => simp only [ofText, hh]
    | some m =>
      simp only [ofText, hh] at hp
      split at hp <;> cases hp
  | some p =>
    simp only [Predicate.defect?, hp] at h
    split at h
    · cases h
    · exact (Option.some.inj h).symm

/-- The defects of texts are in order those of the criteria among them that are not complete. -/
theorem forall₂_hasDefect (s : Schema) (fs : List Text) :
    List.Forall₂ HasDefect (fs.filterMap (Predicate.defect? s))
      ((fs.map (ofText s)).filter (!·.isUnderstood)) := by
  induction fs with
  | nil => exact List.Forall₂.nil
  | cons f fs ih =>
    have hunderstood := isUnderstood_ofText s f
    cases hd : Predicate.defect? s f with
    | none =>
      rw [hd] at hunderstood
      rw [List.filterMap_cons_none hd, List.map_cons,
        List.filter_cons_of_neg (by simp [hunderstood])]
      exact ih
    | some d =>
      rw [hd] at hunderstood
      rw [List.filterMap_cons_some hd, List.map_cons,
        List.filter_cons_of_pos (by simp [hunderstood])]
      exact List.Forall₂.cons (hasDefect_ofText hd) ih

end Criterion

/-! ### The defects of the sections -/

namespace Subject

/-- What is asked for has defects of its own, and the one that nothing introduces the criteria comes
last where the name breaks off. -/
theorem defects_read (s : Schema) (t : Text) :
    ∃ ds : List Defect, (∀ d ∈ ds, d.kind = .subject) ∧
      (((∃ edge, (read s t).next = .stop edge) ∧ (read s t).defects = ds ++ [.missingBy]) ∨
        (∃ rest, (read s t).next = .resume rest) ∧ (read s t).defects = ds) := by
  have hlimit : ∀ number, ∀ d ∈ limitDefects number, d.kind = .subject := by
    intro number d hd
    unfold limitDefects at hd
    split at hd
    · split at hd
      · rw [List.mem_singleton.mp hd]
        rfl
      · cases hd
    · cases hd
  unfold read
  split
  next distinct behind _ =>
  split
  next number rest _ =>
  split
  · exact ⟨_, hlimit number, Or.inr ⟨⟨_, rfl⟩, rfl⟩⟩
  · split
    · exact ⟨_, hlimit number, Or.inr ⟨⟨_, rfl⟩, rfl⟩⟩
    · split
      · next before _ _ _ =>
        refine ⟨limitDefects number ++ [.unknownSubject before], fun d hd ↦ ?_,
          Or.inr ⟨⟨_, rfl⟩, rfl⟩⟩
        rcases List.mem_append.mp hd with hd | hd
        · exact hlimit number d hd
        · rw [List.mem_singleton.mp hd]
          rfl
      · split
        · exact ⟨_, hlimit number, Or.inl ⟨⟨_, rfl⟩, rfl⟩⟩
        · exact ⟨_, hlimit number, Or.inl ⟨⟨_, rfl⟩, rfl⟩⟩

end Subject

namespace Predicate

variable {s : Schema} {m : Chain}

/-- The defects of criteria are about criteria. -/
theorem kind_of_mem_fragments {d : Defect} {fs : List Text} (h : d ∈ fs.filterMap (defect? s)) :
    d.kind = .criterion := by
  obtain ⟨f, -, hf⟩ := List.mem_filterMap.mp h
  simp only [defect?] at hf
  split at hf
  · rw [← Option.some.inj hf]
    rfl
  · split at hf
    · cases hf
    · rw [← Option.some.inj hf]
      rfl

/-- The criteria of a chain are those of its texts. -/
theorem criteria_ofChain (s : Schema) (m : Chain) :
    (ofChain s m).criteria = m.fragments.map (Criterion.ofText s) := by
  rw [criteria, ofChain, flatten_branches, Chain.fragments, List.map_append, List.map_map,
    List.map_map]
  congr 1
  split <;> rfl

/-- A chain gives no criteria exactly when it has none. -/
theorem ofChain_eq_nil_iff : ofChain s m = [] ↔ m.joined = [] ∧ m.last = [] := by
  obtain ⟨joined, last, tail⟩ := m
  constructor
  · intro h
    have hnone := criteria_ofChain s ⟨joined, last, tail⟩
    rw [h, eq_comm, show Predicate.criteria [] = [] from rfl, List.map_eq_nil_iff, Chain.fragments,
      List.append_eq_nil_iff, List.map_eq_nil_iff] at hnone
    refine ⟨hnone.1, ?_⟩
    by_contra hl
    rw [if_neg hl] at hnone
    cases hnone.2
  · rintro ⟨hj, hl⟩
    obtain rfl : joined = [] := hj
    obtain rfl : last = [] := hl
    rfl

/-- The criteria are missing altogether exactly when there are none. -/
theorem emptyPredicate_mem_endDefects_iff :
    .emptyPredicate ∈ endDefects m ↔ m.joined = [] ∧ m.last = [] := by
  rw [endDefects]
  split
  · next hl =>
    cases hc : m.lastConjunction? with
    | none =>
      rw [Chain.lastConjunction?, Option.map_eq_none_iff, List.getLast?_eq_none_iff] at hc
      simp [hc, hl]
    | some c =>
      have hj : m.joined ≠ [] := by
        intro hj
        rw [Chain.lastConjunction?, hj] at hc
        cases hc
      simp [hj]
  · next hl => simp [hl]

/-- The end of a chain has at most one defect, that a criterion is missing. -/
theorem kind_of_mem_endDefects {d : Defect} (h : d ∈ endDefects m) :
    endDefects m = [d] ∧ d.kind = .gap := by
  rw [endDefects] at h ⊢
  split at h
  · next hl =>
    rw [if_pos hl]
    split at h
    · rw [List.mem_singleton.mp h]
      exact ⟨rfl, rfl⟩
    · rw [List.mem_singleton.mp h]
      exact ⟨rfl, rfl⟩
  · cases h

/-- Where a criterion is missing behind a conjunction, nothing follows. -/
theorem tail_eq_nil_of_danglingConjunction {c : Conjunction} (he : m.emptyBranch? = none)
    (h : .danglingConjunction c ∈ endDefects m) : m.tail = [] := by
  have hgap := kind_of_mem_endDefects h
  by_cases hl : m.last = []
  · rcases Chain.emptyBranch?_eq_none_iff.mp he with hfilled | hj
    · exact hfilled.last hl
    · have hempty := emptyPredicate_mem_endDefects_iff.mpr ⟨hj, hl⟩
      rw [hgap.1] at hempty
      cases List.mem_singleton.mp hempty
  · rw [endDefects, if_neg hl] at h
    cases h

end Predicate

namespace Closing

/-- What stands behind the criteria has defects of its own and those of sort keys. -/
theorem kind_of_mem_read {policy : DirectionPolicy} {s : Schema} {t : Text} {d : Defect}
    (h : d ∈ (read policy s t).2.1) : d.kind = .closing ∨ d.kind = .direction := by
  have hrepeated : ∀ markers : List CaseMarker,
      d ∈ markers.map (fun _ ↦ Defect.repeatedAllIgnoreCase) → d.kind = .closing := by
    intro markers hd
    obtain ⟨m, -, rfl⟩ := List.mem_map.mp hd
    rfl
  have hdirection : ∀ items : List OrderItem, d ∈ items.filterMap (OrderItem.defect? policy) →
      d.kind = .direction := by
    intro items hd
    obtain ⟨i, -, hi⟩ := List.mem_filterMap.mp hd
    unfold OrderItem.defect? at hi
    split at hi
    · rw [← Option.some.inj hi]
      rfl
    · cases hi
  have hend : ∀ (items : List OrderItem) (rest : Text), d ∈ OrderItem.endDefects items rest →
      d.kind = .closing := by
    intro items rest hd
    unfold OrderItem.endDefects at hd
    split at hd
    · rw [List.mem_singleton.mp hd]
      rfl
    · split at hd
      · rw [List.mem_singleton.mp hd]
        rfl
      · cases hd
  simp only [read] at h
  split at h
  · exact Or.inl (hrepeated _ h)
  · split at h
    · rcases List.mem_append.mp h with h | h
      · exact Or.inl (hrepeated _ h)
      · rw [List.mem_singleton.mp h]
        exact Or.inl rfl
    · rcases List.mem_append.mp h with h | h
      · rcases List.mem_append.mp h with h | h
        · exact Or.inl (hrepeated _ h)
        · exact Or.inr (hdirection _ h)
      · exact Or.inl (hend _ _ h)

end Closing

/-! ### The defects of a reading -/

namespace Reading

/-- How the query of a reading and its defects come about. -/
inductive Shape (s : Schema) (r : Reading) : Prop where
  /-- There is no verb. -/
  | blank (query : r.query = .blank) (defects : r.defects = [.missingVerb])
  /-- The name breaks off before the criteria. -/
  | heading {verb : Text} {subject : Subject} {ds : List Defect}
      (query : r.query = ⟨some verb, subject, [], .absent⟩)
      (defects : r.defects = ds ++ [.missingBy]) (kind : ∀ d ∈ ds, d.kind = .subject)
  /-- The criteria are those of a chain. -/
  | criteria {verb : Text} {subject : Subject} {closing : Closing} {m : Predicate.Chain}
      {ds es : List Defect}
      (query : r.query = ⟨some verb, subject, Predicate.ofChain s m, closing⟩)
      (defects : r.defects =
        ds ++ (m.fragments.filterMap (Predicate.defect? s) ++ Predicate.endDefects m) ++ es)
      (kind : ∀ d ∈ ds, d.kind = .subject)
      (kind_closing : ∀ d ∈ es, d.kind = .closing ∨ d.kind = .direction)
      (emptyBranch?_eq_none : m.emptyBranch? = none) (closing_eq_nil : m.tail = [] → es = [])

namespace Shape

variable {s : Schema} {r : Reading}

private theorem notMem_of_kind {k : DefectKind} {ds : List Defect} (h : ∀ d ∈ ds, d.kind = k)
    {d : Defect} (hd : d.kind ≠ k) : d ∉ ds :=
  fun hmem ↦ hd (h d hmem)

/-- No branch is empty. -/
theorem branch_ne_nil (h : Shape s r) : ∀ branch ∈ r.query.predicate, branch ≠ [] := by
  intro branch hb
  cases h with
  | blank query defects =>
    rw [query] at hb
    cases hb
  | heading query defects kind =>
    rw [query] at hb
    cases hb
  | criteria query defects kind kind_closing emptyBranch?_eq_none closing_eq_nil =>
    rw [query] at hb
    exact Predicate.ne_nil_of_mem_branches hb

/-- There are no criteria exactly where a defect says why. -/
theorem predicate_eq_nil_iff (h : Shape s r) :
    r.query.predicate = [] ↔
      .missingVerb ∈ r.defects ∨ .missingBy ∈ r.defects ∨ .emptyPredicate ∈ r.defects := by
  cases h with
  | blank query defects => simp [query, defects, Query.blank]
  | heading query defects kind => simp [query, defects]
  | @criteria verb subject closing m ds es query defects kind kind_closing _ _ =>
    have hother : ∀ d : Defect, d.kind ≠ .subject → d.kind ≠ .criterion → d.kind ≠ .closing →
        d.kind ≠ .direction → (d ∈ r.defects ↔ d ∈ Predicate.endDefects m) := by
      intro d hs hc hk hd
      have hds : d ∉ ds := notMem_of_kind kind hs
      have hfs : d ∉ m.fragments.filterMap (Predicate.defect? s) :=
        fun hmem ↦ hc (Predicate.kind_of_mem_fragments hmem)
      have hes : d ∉ es := fun hmem ↦ (kind_closing d hmem).elim hk hd
      simp only [defects, List.mem_append, hds, hfs, hes, false_or, or_false]
    have hgap : ∀ d : Defect, d.kind = .verb ∨ d.kind = .introducer →
        d ∉ Predicate.endDefects m := by
      intro d hd hmem
      rw [(Predicate.kind_of_mem_endDefects hmem).2] at hd
      rcases hd with hd | hd <;> cases hd
    rw [hother .missingVerb (by decide) (by decide) (by decide) (by decide),
      hother .missingBy (by decide) (by decide) (by decide) (by decide),
      hother .emptyPredicate (by decide) (by decide) (by decide) (by decide),
      or_iff_right (hgap _ (Or.inl rfl)), or_iff_right (hgap _ (Or.inr rfl)),
      Predicate.emptyPredicate_mem_endDefects_iff, query]
    exact Predicate.ofChain_eq_nil_iff

/-- There is no verb exactly where that is the only defect. -/
theorem verb_eq_none_iff (h : Shape s r) : r.query.verb = none ↔ r.defects = [.missingVerb] := by
  cases h with
  | blank query defects => simp [query, defects, Query.blank]
  | heading query defects kind =>
    rw [query, defects]
    refine iff_of_false (Option.some_ne_none _) fun he ↦ ?_
    have hmem : Defect.missingBy ∈ [Defect.missingVerb] := by
      rw [← he]
      exact List.mem_append_right _ (List.mem_singleton_self _)
    cases List.mem_singleton.mp hmem
  | @criteria verb subject closing m ds es query defects kind kind_closing _ _ =>
    rw [query]
    refine iff_of_false (Option.some_ne_none _) fun he ↦ ?_
    have hmem : Defect.missingVerb ∈ r.defects := he ▸ List.mem_singleton_self _
    rw [defects, List.mem_append, List.mem_append, List.mem_append] at hmem
    rcases hmem with (hmem | hmem | hmem) | hmem
    · cases kind _ hmem
    · cases Predicate.kind_of_mem_fragments hmem
    · cases (Predicate.kind_of_mem_endDefects hmem).2
    · rcases kind_closing _ hmem with hk | hk <;> cases hk

/-- Where there is no verb, there is nothing else. -/
theorem query_eq_blank (h : Shape s r) (hv : r.query.verb = none) : r.query = .blank := by
  cases h with
  | blank query defects => exact query
  | heading query defects kind =>
    rw [query] at hv
    cases hv
  | criteria query defects kind kind_closing emptyBranch?_eq_none closing_eq_nil =>
    rw [query] at hv
    cases hv

/-- A defect that breaks the name off comes last. -/
theorem exists_front (h : Shape s r) :
    ∃ front, (∀ d ∈ front, d.breaksOff = false) ∧
      (r.defects = front ∨ ∃ d, r.defects = front ++ [d]) := by
  have hkind : ∀ d : Defect, d.kind ≠ .introducer → d.kind ≠ .gap → d.breaksOff = false := by
    intro d hi hg
    cases d with
    | missingBy => exact absurd rfl hi
    | danglingConjunction c => exact absurd rfl hg
    | _ => rfl
  cases h with
  | blank query defects => exact ⟨[], List.forall_mem_nil _, Or.inr ⟨_, defects⟩⟩
  | @heading verb subject ds query defects kind =>
    refine ⟨ds, fun d hd ↦ ?_, Or.inr ⟨_, defects⟩⟩
    exact hkind d (by rw [kind d hd]; decide) (by rw [kind d hd]; decide)
  | @criteria verb subject closing m ds es query defects kind kind_closing he closing_eq_nil =>
    have hfront : ∀ d ∈ ds ++ m.fragments.filterMap (Predicate.defect? s), d.breaksOff = false := by
      intro d hd
      rcases List.mem_append.mp hd with hd | hd
      · exact hkind d (by rw [kind d hd]; decide) (by rw [kind d hd]; decide)
      · have hk := Predicate.kind_of_mem_fragments hd
        exact hkind d (by rw [hk]; decide) (by rw [hk]; decide)
    have hback : ∀ d ∈ es, d.breaksOff = false := by
      intro d hd
      rcases kind_closing d hd with hk | hk
      · exact hkind d (by rw [hk]; decide) (by rw [hk]; decide)
      · exact hkind d (by rw [hk]; decide) (by rw [hk]; decide)
    rw [← List.append_assoc] at defects
    by_cases hdangling : ∃ c, .danglingConjunction c ∈ Predicate.endDefects m
    · obtain ⟨c, hc⟩ := hdangling
      have htail := Predicate.tail_eq_nil_of_danglingConjunction he hc
      rw [closing_eq_nil htail, List.append_nil, (Predicate.kind_of_mem_endDefects hc).1] at defects
      exact ⟨_, hfront, Or.inr ⟨_, defects⟩⟩
    · refine ⟨_, fun d hd ↦ ?_, Or.inl defects⟩
      rcases List.mem_append.mp hd with hd | hd
      · rcases List.mem_append.mp hd with hd | hd
        · exact hfront d hd
        · have hk := (Predicate.kind_of_mem_endDefects hd).2
          cases d with
          | danglingConjunction c => exact absurd ⟨c, hd⟩ hdangling
          | missingBy => cases hk
          | _ => rfl
      · exact hback d hd

/-- The defects of criteria are in order those of the criteria that are not complete. -/
theorem forall₂_hasDefect (h : Shape s r) :
    List.Forall₂ Criterion.HasDefect (r.defects.filter (·.kind = .criterion))
      (r.query.predicate.criteria.filter (!·.isUnderstood)) := by
  have hnone : ∀ ds : List Defect, (∀ d ∈ ds, d.kind ≠ .criterion) →
      ds.filter (·.kind = .criterion) = [] := by
    intro ds hds
    refine List.filter_eq_nil_iff.mpr fun d hd ↦ ?_
    simpa using hds d hd
  cases h with
  | blank query defects =>
    rw [query, defects]
    exact List.Forall₂.nil
  | @heading verb subject ds query defects kind =>
    have hds := hnone ds fun d hd ↦ by rw [kind d hd]; decide
    rw [query, defects, List.filter_append, hds]
    exact List.Forall₂.nil
  | @criteria verb subject closing m ds es query defects kind kind_closing _ _ =>
    have hds := hnone ds fun d hd ↦ by rw [kind d hd]; decide
    have hend := hnone (Predicate.endDefects m) fun d hd ↦ by
      rw [(Predicate.kind_of_mem_endDefects hd).2]
      decide
    have hes := hnone es fun d hd ↦ by
      rcases kind_closing d hd with hk | hk
      · rw [hk]
        decide
      · rw [hk]
        decide
    have hfs : (m.fragments.filterMap (Predicate.defect? s)).filter (·.kind = .criterion) =
        m.fragments.filterMap (Predicate.defect? s) :=
      List.filter_eq_self.mpr fun d hd ↦ decide_eq_true (Predicate.kind_of_mem_fragments hd)
    rw [query, defects, List.filter_append, List.filter_append, List.filter_append, hds, hfs, hend,
      hes, List.nil_append, List.append_nil, List.append_nil, Predicate.criteria_ofChain]
    exact Criterion.forall₂_hasDefect s m.fragments

end Shape

end Reading

namespace Grammar

variable {g : Grammar} {s : Schema} {t : Text} {r : Reading}

private theorem shape_of_readBehind {source verb rest : Text}
    (h : g.readBehind s source verb rest = .ok r) : r.Shape s := by
  obtain ⟨ds, hkind, ⟨⟨edge, hn⟩, hd⟩ | ⟨⟨behind, hn⟩, hd⟩⟩ := Subject.defects_read s rest
  · rw [readBehind_of_stop hn, hd] at h
    obtain rfl := Except.ok.inj h
    exact .heading rfl rfl hkind
  · cases hp : Predicate.read s behind with
    | error fault =>
      rw [readBehind_of_error hn hp] at h
      cases h
    | ok p =>
      obtain ⟨he, rfl⟩ := Predicate.eq_passage_of_read hp
      cases hpn : Predicate.next s (Predicate.chain s behind) with
      | stop edge =>
        rw [readBehind_of_criteria hn hp hpn, hd] at h
        obtain rfl := Except.ok.inj h
        exact .criteria rfl (List.append_nil _).symm hkind (List.forall_mem_nil _) he fun _ ↦ rfl
      | resume tail =>
        rw [readBehind_of_closing hn hp hpn, hd] at h
        obtain rfl := Except.ok.inj h
        refine .criteria rfl rfl hkind (fun d hd ↦ Closing.kind_of_mem_read hd) he fun htail ↦ ?_
        obtain ⟨edge, hstop⟩ := Predicate.exists_next_eq_stop s htail
        rw [hstop] at hpn
        cases hpn

/-- The defects of a reading come about section by section. -/
theorem shape_of_read (h : g.read s t = .ok r) : r.Shape s := by
  have hall := all_isNameChar_of_read h
  cases hr : Keyword.readLongest? id g.verbs t with
  | none =>
    rw [read_of_verb_eq_none hall hr] at h
    obtain rfl := Except.ok.inj h
    exact .blank rfl rfl
  | some m =>
    rw [read_of_verb hall hr] at h
    exact shape_of_readBehind h

/-- The missing directions are in order those of the sort keys that have none, where each needs
one. -/
theorem filter_missingDirection (h : g.read s t = .ok r) :
    r.defects.filter Defect.isMissingDirection =
      match g.missingDirection with
      | .reject => (r.query.closing.order.filter (·.direction.isNone)).map
          fun i ↦ .missingDirection i.property.name
      | .ascending => [] := by
  rw [filter_isMissingDirection_of_read h]
  cases g.missingDirection with
  | ascending => exact OrderItem.filterMap_defect?_ascending _
  | reject =>
    rw [← List.filterMap_eq_map, List.filterMap_filter]
    refine List.filterMap_congr fun i _ ↦ ?_
    cases hi : i.direction <;> simp [OrderItem.defect?, hi]

end Grammar

/-- The defects of a reading say what is missing in its query, and nothing else. -/
structure Reading.IsAccounted (policy : DirectionPolicy) (r : Reading) : Prop where
  branch_ne_nil : ∀ branch ∈ r.query.predicate, branch ≠ []
  predicate_eq_nil_iff : r.query.predicate = [] ↔
    .missingVerb ∈ r.defects ∨ .missingBy ∈ r.defects ∨ .emptyPredicate ∈ r.defects
  verb_eq_none_iff : r.query.verb = none ↔ r.defects = [.missingVerb]
  query_eq_blank : r.query.verb = none → r.query = .blank
  /-- A name breaks off once. -/
  countP_breaksOff_le : r.defects.countP Defect.breaksOff ≤ 1
  /-- A name breaks off at its end. -/
  breaksOff_dropLast : ∀ d ∈ r.defects.dropLast, d.breaksOff = false
  /-- The defects of criteria stand in the order of the criteria, one for each incomplete one. -/
  criteria : List.Forall₂ Criterion.HasDefect (r.defects.filter (·.kind = .criterion))
    (r.query.predicate.criteria.filter (!·.isUnderstood))
  directions : r.defects.filter Defect.isMissingDirection =
    match policy with
    | .reject => (r.query.closing.order.filter (·.direction.isNone)).map
        fun i ↦ .missingDirection i.property.name
    | .ascending => []

namespace Grammar

variable {g : Grammar} {s : Schema} {t : Text} {r : Reading}

/-- The defects of every text that can be read account for what its query lacks. -/
theorem isAccounted_of_read (h : g.read s t = .ok r) : r.IsAccounted g.missingDirection := by
  have hshape := shape_of_read h
  obtain ⟨front, hfront, hdefects⟩ := hshape.exists_front
  refine ⟨hshape.branch_ne_nil, hshape.predicate_eq_nil_iff, hshape.verb_eq_none_iff,
    hshape.query_eq_blank, ?_, ?_, hshape.forall₂_hasDefect, filter_missingDirection h⟩
  · have hzero : front.countP Defect.breaksOff = 0 :=
      List.countP_eq_zero.mpr fun d hd ↦ by rw [hfront d hd]; exact Bool.false_ne_true
    rcases hdefects with hd | ⟨d, hd⟩
    · rw [hd, hzero]
      exact Nat.zero_le 1
    · rw [hd, List.countP_append, hzero, Nat.zero_add]
      exact List.countP_le_length
  · intro x hx
    rcases hdefects with hd | ⟨d, hd⟩
    · rw [hd] at hx
      exact hfront x (List.mem_of_mem_dropLast hx)
    · rw [hd, List.dropLast_concat] at hx
      exact hfront x hx

/-- A name with a number that is out of bounds, two incomplete criteria and a sort key without a
direction is accounted for. -/
theorem isAccounted_of_read_sample :
    ∃ r, standard.read .sample "findTop0ByFooAndTextBarOrDateOrderByDateTextDesc".toList = .ok r ∧
      r.defects = [.invalidLimit "0".toList, .unknownProperty "Foo".toList,
        .unknownOperator "text".toList "Bar".toList, .missingDirection "date".toList] ∧
      r.IsAccounted .reject := by
  have key : (standard.read .sample
      "findTop0ByFooAndTextBarOrDateOrderByDateTextDesc".toList).toOption.any (fun r ↦
        r.defects == [.invalidLimit "0".toList, .unknownProperty "Foo".toList,
          .unknownOperator "text".toList "Bar".toList, .missingDirection "date".toList]) = true := by
    decide +kernel
  cases hread : standard.read .sample
      "findTop0ByFooAndTextBarOrDateOrderByDateTextDesc".toList with
  | error fault =>
    rw [hread] at key
    cases key
  | ok r =>
    rw [hread, Except.toOption, Option.any_some, beq_iff_eq] at key
    exact ⟨r, rfl, key, isAccounted_of_read hread⟩

end Grammar

end QueryNames
