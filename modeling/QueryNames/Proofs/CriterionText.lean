import QueryNames.Proofs.Accounting

/-!
# What the text of a criterion says

Reading a criterion loses no text: without its first marker the text is an identifier, a keyword and
what is left of it. The identifier is the longest one there and the keyword the longest behind it.
Where the marker stood makes no difference, so the canonical text of a criterion is read as that
criterion again. Nothing is supposed of the schema, and the text may hold any characters.
-/

namespace QueryNames

open Text

namespace CaseMarker

/-- The text that is left when the marker that begins first is taken out of a text. A text without
markers is left as it is. -/
inductive IsCut : Text → Option CaseMarker → Text → Prop where
  | absent {t : Text} : (∀ m : CaseMarker, ¬m.word <:+: t) → IsCut t none t
  | present {before behind : Text} {m : CaseMarker} :
      (∀ (n : CaseMarker) (x y : Text), before ++ (m.word ++ behind) = x ++ (n.word ++ y) →
        before.length ≤ x.length) →
        IsCut (before ++ (m.word ++ behind)) (some m) (before ++ behind)

/-- Behind a text without markers no marker begins earlier than the one that stands there. -/
theorem length_le_of_lacksMarkers {before behind x y : Text} {m n : CaseMarker}
    (h : LacksMarkers before) (heq : before ++ (m.word ++ behind) = x ++ (n.word ++ y)) :
    before.length ≤ x.length := by
  rcases List.append_eq_append_iff.mp heq with ⟨z, hx, -⟩ | ⟨z, hbefore, hz⟩
  · rw [hx, List.length_append]
    exact Nat.le_add_right _ _
  · -- a marker that begins earlier would begin in `z` and end in the marker behind it
    cases z with
    | nil =>
      rw [hbefore, List.append_nil]
    | cons c z =>
      have hlacks : LacksMarkers (c :: z) :=
        h.of_infix (hbefore ▸ (List.suffix_append x (c :: z)).isInfix)
      have hnone := read?_eq_none_of_lacksMarkers (b := behind) m hlacks (List.cons_ne_nil c z)
      exact absurd ⟨y, hz⟩ (read?_eq_none_iff.mp hnone n)

/-- The marker that begins first is the one that is cut out. -/
theorem isCut_iff {t words : Text} {marker : Option CaseMarker} :
    IsCut t marker words ↔ cut t = (marker, words) := by
  constructor
  · intro h
    cases h with
    | absent hlacks => exact cut_of_lacksMarkers hlacks
    | @present before behind m hfirst =>
      refine cut_append m behind fun n hn ↦ ?_
      obtain ⟨x, y, rfl⟩ := hn
      have hle := hfirst n x (y ++ (m.word ++ behind)) (by simp only [List.append_assoc])
      rw [word_eq_cons n] at hle
      simp only [List.length_append, List.length_cons] at hle
      omega
  · intro h
    cases marker with
    | none =>
      rw [eq_of_cut_none h]
      exact .absent (lacksMarkers_of_cut (congrArg Prod.fst h))
    | some m =>
      obtain ⟨before, behind, rfl, rfl, hlacks⟩ := exists_eq_of_cut h
      exact .present fun n x y ↦ length_le_of_lacksMarkers hlacks

end CaseMarker

namespace Criterion

variable {s : Schema} {t u words : Text} {c : Criterion} {p : Property}

/-- How the words of a criterion, that is its text without the marker, are divided. -/
inductive Divides (s : Schema) (words : Text) (c : Criterion) : Prop where
  /-- No declared property stands at the head of the words. -/
  | unknown (absent : ∀ p ∈ s.properties, ¬p.identifier <+: words)
      (property : c.property = none) (spelling : c.spelling = none) (keyword : c.keyword = [])
      (group : c.group = []) (residue : c.residue = words)
  /-- The words are the longest identifier at their head, the longest keyword behind it, if there is
  one, and what is left. -/
  | known {p : Property} (property_mem : p ∈ s.properties) (property : c.property = some p)
      (words_eq : words = p.identifier ++ (c.keyword ++ c.residue))
      (property_longest : ∀ q ∈ s.properties, q.identifier <+: words →
        q.identifier.length ≤ p.identifier.length)
      (keyword_longest : ∀ o : Operator, ∀ k ∈ o.spellings, k <+: c.keyword ++ c.residue →
        k.length ≤ c.keyword.length)

/-- A criterion says exactly what a text does: its marker is the first one there, the other words
are divided among its parts, and each part is what its words mean. -/
structure Says (s : Schema) (t : Text) (c : Criterion) : Prop where
  exists_words : ∃ words, CaseMarker.IsCut t c.marker words ∧ c.Divides s words
  /-- The operator is the only one with the keyword, and there is none without a keyword. -/
  operator : ∀ o, c.spelling.map Spelling.operator = some o ↔ c.keyword ∈ o.spellings
  caseMode : c.caseMode = if c.markerWord = [] then .never else .perProperty
  group : c.group = if Word.group <+: c.keyword then Word.group else []

/-- The operator of a criterion is read again in front of what is left of it exactly if no longer
keyword stands there. -/
theorem read?_keyword_append_iff (c : Criterion) :
    Spelling.read? (c.keyword ++ c.residue) = c.spelling.map (·, c.residue) ↔
      ∀ o : Operator, ∀ k ∈ o.spellings, k <+: c.keyword ++ c.residue →
        k.length ≤ c.keyword.length := by
  have hspellings : (∀ o : Operator, ∀ k ∈ o.spellings, k <+: c.keyword ++ c.residue →
      k.length ≤ c.keyword.length) ↔ ∀ sp : Spelling, sp.keyword <+: c.keyword ++ c.residue →
        sp.keyword.length ≤ c.keyword.length :=
    ⟨fun h sp ↦ h sp.operator sp.keyword sp.keyword_mem, fun h o k hk ↦ h ⟨o, k, hk⟩⟩
  rw [hspellings]
  cases hsp : c.spelling with
  | none =>
    rw [keyword_of_spelling_eq_none hsp, Option.map_none, Spelling.read?_eq_none_iff]
    refine forall_congr' fun sp ↦ imp_congr_right fun _ ↦ ?_
    rw [List.length_nil, Nat.le_zero, List.length_eq_zero_iff]
    exact (iff_false_intro sp.keyword_ne_nil).symm
  | some sp =>
    rw [keyword_of_spelling_eq_some hsp, Option.map_some, Spelling.read?_eq_some_iff,
      and_iff_right rfl]

/-- An operator belongs to a criterion exactly if the keyword spells it. -/
theorem spelling_operator_iff (c : Criterion) (o : Operator) :
    c.spelling.map Spelling.operator = some o ↔ c.keyword ∈ o.spellings := by
  cases hsp : c.spelling with
  | none =>
    rw [keyword_of_spelling_eq_none hsp, Option.map_none]
    exact iff_of_false nofun fun hmem ↦ (⟨o, [], hmem⟩ : Spelling).keyword_ne_nil rfl
  | some sp =>
    rw [keyword_of_spelling_eq_some hsp, Option.map_some, Option.some_inj]
    constructor
    · rintro rfl
      exact sp.keyword_mem
    · exact Operator.eq_of_mem_spellings sp.keyword_mem

/-- A criterion without a property has no operator, and all words are left of it. -/
theorem ofText_of_headProperty?_eq_none (h : s.headProperty? (CaseMarker.cut t).2 = none) :
    ofText s t = ⟨none, none, (CaseMarker.cut t).1, (CaseMarker.cut t).2⟩ := by
  simp only [ofText, h]

/-- Behind its property a criterion is read by its operator. -/
theorem ofText_of_headProperty? {behind : Text}
    (h : s.headProperty? (CaseMarker.cut t).2 = some (p, behind)) :
    ofText s t =
      ⟨some p, (Spelling.read? behind).map Prod.fst, (CaseMarker.cut t).1,
        ((Spelling.read? behind).map Prod.snd).getD behind⟩ := by
  simp only [ofText, h]
  cases Spelling.read? behind <;> rfl

/-- Whatever a text holds, its words are divided among the parts of the criterion. -/
theorem divides_ofText (s : Schema) (t : Text) : (ofText s t).Divides s (CaseMarker.cut t).2 := by
  cases hp : (ofText s t).property with
  | none =>
    cases hh : s.headProperty? (CaseMarker.cut t).2 with
    | none =>
      rw [ofText_of_headProperty?_eq_none hh]
      exact .unknown (Schema.headProperty?_eq_none_iff.mp hh) rfl rfl rfl rfl rfl
    | some m =>
      rw [ofText_of_headProperty? hh] at hp
      cases hp
  | some p =>
    obtain ⟨hhead, hread⟩ := read_of_property hp
    obtain ⟨hmem, hwords, hmax⟩ := Schema.headProperty?_eq_some_iff.mp hhead
    exact .known hmem hp hwords hmax ((read?_keyword_append_iff _).mp hread)

/-- Only one criterion has a marker and words divided among its parts. -/
theorem eq_of_divides (h : c.Divides s (CaseMarker.cut t).2)
    (hm : c.marker = (CaseMarker.cut t).1) : ofText s t = c := by
  obtain ⟨property, spelling, marker, residue⟩ := c
  obtain rfl : marker = (CaseMarker.cut t).1 := hm
  cases h with
  | unknown hnone hproperty hspelling _ _ hresidue =>
    rw [ofText_of_headProperty?_eq_none (Schema.headProperty?_eq_none_iff.mpr hnone)]
    obtain rfl : property = none := hproperty
    obtain rfl : spelling = none := hspelling
    obtain rfl : residue = _ := hresidue
    rfl
  | @known p hmem hproperty hwords hmax hlongest =>
    have hread := (read?_keyword_append_iff _).mpr hlongest
    rw [ofText_of_headProperty? (Schema.headProperty?_eq_some_iff.mpr ⟨hmem, hwords, hmax⟩), hread]
    obtain rfl : property = some p := hproperty
    cases spelling <;> rfl

/-- Reading a criterion loses no text and takes the longest words. A text is read as the criterion
that says exactly what it does: the marker is the one that begins first; at the head of the other
words stands the longest declared identifier, behind it the longest keyword, and what follows is
left over. Where no declared property stands at their head, all words are left over. -/
theorem ofText_eq_iff : ofText s t = c ↔ c.Says s t := by
  constructor
  · rintro rfl
    refine ⟨⟨(CaseMarker.cut t).2, ?_, divides_ofText s t⟩, spelling_operator_iff _, ?_, ?_⟩
    · rw [marker_ofText]
      exact CaseMarker.isCut_iff.mpr rfl
    · rw [caseMode, markerWord]
      rcases (ofText s t).marker with _ | (_ | _) <;> rfl
    · rw [group, Operator.groupOf]
      simp only [List.isPrefixOf_iff_prefix]
  · intro h
    obtain ⟨words, hcut, hdivides⟩ := h.exists_words
    have heq := CaseMarker.isCut_iff.mp hcut
    refine eq_of_divides ?_ (congrArg Prod.fst heq).symm
    rw [heq]
    exact hdivides

/-- A marker inside a keyword splits it in two, and cutting the marker out joins it again. -/
example : ofText .sample "TextIsNoIgnoringCasetNullable".toList =
    ⟨some ⟨"text".toList, .string⟩, some ⟨.isNotNull, "IsNotNull".toList, by decide⟩,
      some .ignoringCase, "able".toList⟩ := by
  decide +kernel

/-! ### The place of the marker -/

/-- Texts that are the same without their markers are read as the same criterion but for these. -/
theorem ofText_congr (h : (CaseMarker.cut t).2 = (CaseMarker.cut u).2) :
    ofText s t = { ofText s u with marker := (CaseMarker.cut t).1 } := by
  cases hh : s.headProperty? (CaseMarker.cut u).2 with
  | none =>
    rw [ofText_of_headProperty?_eq_none hh, ofText_of_headProperty?_eq_none (h ▸ hh), h]
  | some m =>
    rw [ofText_of_headProperty? hh, ofText_of_headProperty? (h ▸ hh)]

/-- A marker that is put anywhere into a text without markers is the only thing that changes. -/
theorem ofText_insert_marker {before behind : Text} (m : CaseMarker)
    (h : LacksMarkers (before ++ behind)) :
    ofText s (before ++ (m.word ++ behind)) =
      { ofText s (before ++ behind) with marker := some m } := by
  have hcut : CaseMarker.cut (before ++ (m.word ++ behind)) = (some m, before ++ behind) :=
    CaseMarker.cut_append m behind (h.of_infix (List.prefix_append before behind).isInfix)
  have hwhole : CaseMarker.cut (before ++ behind) = (none, before ++ behind) :=
    CaseMarker.cut_of_lacksMarkers h
  rw [ofText_congr (u := before ++ behind) (by rw [hcut, hwhole]), hcut]

/-- Out of the canonical text of a criterion with an identifier without markers its own marker is
cut. -/
theorem cut_text (hp : c.property = some p) (h : p.LacksMarkers) :
    CaseMarker.cut c.text = (c.marker, p.identifier ++ c.keyword) := by
  have hwords : LacksMarkers (p.identifier ++ c.keyword) := by
    rcases c.keyword_eq_nil_or_mem with hnil | hmem
    · rw [hnil, List.append_nil]
      exact h
    · exact LacksMarkers.append_keyword h hmem
  have htext : c.text = (p.identifier ++ c.keyword) ++ c.markerWord := by
    rw [text, hp]
  rw [htext, markerWord]
  cases c.marker with
  | none =>
    rw [Option.map_none, Option.getD_none, List.append_nil]
    exact CaseMarker.cut_of_lacksMarkers hwords
  | some m =>
    have hcut := CaseMarker.cut_append m [] hwords
    rwa [List.append_nil, List.append_nil] at hcut

/-- The canonical text of a criterion is read as that criterion again, if its whole text has been
read and the identifier holds no marker. -/
theorem ofText_text (hu : (ofText s t).isUnderstood = true)
    (hlacks : ∀ p ∈ (ofText s t).property, p.LacksMarkers) :
    ofText s (ofText s t).text = ofText s t := by
  rw [isUnderstood, Bool.and_eq_true, List.isEmpty_iff] at hu
  obtain ⟨p, hp⟩ := Option.isSome_iff_exists.mp hu.1
  obtain ⟨-, hcut⟩ := cut_of_property_eq_some hp
  rw [hu.2, List.append_nil] at hcut
  have htext := cut_text hp (hlacks p hp)
  rw [ofText_congr (congrArg Prod.snd (htext.trans hcut.symm)), htext]

/-- The place of the marker in a criterion makes no difference. Put anywhere into a text without
markers, it lets the criterion ignore letter case and changes nothing else. So the canonical text,
where the marker stands at the end, is read as the same criterion. -/
theorem ofText_marker_anywhere (s : Schema) :
    (∀ (before behind : Text) (m : CaseMarker), LacksMarkers (before ++ behind) →
      ofText s (before ++ (m.word ++ behind)) =
          { ofText s (before ++ behind) with marker := some m } ∧
        (ofText s (before ++ (m.word ++ behind))).caseMode = .perProperty ∧
        (ofText s (before ++ (m.word ++ behind))).markerWord = m.word) ∧
    ∀ t, (ofText s t).isUnderstood = true → (∀ p ∈ (ofText s t).property, p.LacksMarkers) →
      ofText s (ofText s t).text = ofText s t := by
  refine ⟨fun before behind m h ↦ ?_, fun t hu hlacks ↦ ofText_text hu hlacks⟩
  have heq := ofText_insert_marker (s := s) m h
  refine ⟨heq, ?_, ?_⟩
  · rw [heq]
    rfl
  · rw [heq]
    rfl

/-- A marker in the middle of a keyword, or of a property, is as good as one at the end. -/
theorem ofText_marker_anywhere_sample :
    ofText .sample "TextIsNoIgnoringCasetNullable".toList =
        { ofText .sample "TextIsNotNullable".toList with marker := some .ignoringCase } ∧
      ofText .sample (ofText .sample "DaIgnoreCaseteIsBefore".toList).text =
        ofText .sample "DaIgnoreCaseteIsBefore".toList := by
  obtain ⟨hinsert, htext⟩ := ofText_marker_anywhere .sample
  have hlacks : LacksMarkers ("TextIsNo".toList ++ "tNullable".toList) := by decide +kernel
  exact ⟨(hinsert "TextIsNo".toList "tNullable".toList .ignoringCase hlacks).1,
    htext "DaIgnoreCaseteIsBefore".toList (by decide +kernel) (by decide +kernel)⟩

end Criterion

end QueryNames
