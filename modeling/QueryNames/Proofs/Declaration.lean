import QueryNames.Proofs.ClosingSection
import QueryNames.Proofs.Sections

/-!
# The order of declaration

A schema lists its properties in some order and with some categories, and a grammar lists its verbs
in some order. Reading sees neither order, because no two entries that can be read at one place are
equally long, and it never looks at a category. So schemas of the same names read every text alike
but for the categories that the properties in the result carry; only completion tells these apart.
-/

namespace QueryNames

open Text

namespace Text

variable {α β : Type}

/-- The longest entry does not depend on the order of a table in which entries of one length are
told apart by what can be read. -/
theorem longest?_congr {size : α → Nat} {read : α → Option β} {table table' : List α}
    (hmem : ∀ a, a ∈ table ↔ a ∈ table')
    (huniq : ∀ a c b d, read a = some b → read c = some d → size a = size c → a = c) :
    longest? size read table = longest? size read table' := by
  cases h : longest? size read table with
  | none =>
    refine (longest?_eq_none_iff.mpr fun a ha ↦ ?_).symm
    exact longest?_eq_none_iff.mp h a ((hmem a).mpr ha)
  | some m =>
    obtain ⟨a, b⟩ := m
    obtain ⟨ha, hb⟩ := of_longest? h
    refine (longest?_eq_some ((hmem a).mp ha) hb fun c hc d hd ↦ ?_).symm
    have hle := size_le_of_longest? h ((hmem c).mpr hc) hd
    rcases Nat.lt_or_eq_of_le hle with hlt | heq
    · exact Or.inr hlt
    · exact Or.inl (huniq c a d b hd hb heq)

/-- Ascending lists with the same texts are the same. -/
theorem eq_of_pairwise_lt {xs ys : List Text} (hx : xs.Pairwise (· < ·)) (hy : ys.Pairwise (· < ·))
    (hmem : ∀ a, a ∈ xs ↔ a ∈ ys) : xs = ys := by
  have hnodup : ∀ {l : List Text}, l.Pairwise (· < ·) → l.Nodup := by
    intro l hl
    refine hl.imp fun {a b} hab heq ↦ ?_
    exact List.lt_irrefl a (heq ▸ hab)
  refine List.Perm.eq_of_pairwise (fun a b _ _ hab hba ↦ ?_) hx hy
    ((List.perm_ext_iff_of_nodup (hnodup hx) (hnodup hy)).mpr hmem)
  exact absurd hba (List.lt_asymm hab)

end Text

/-! ### Other properties in place of those that have been read -/

variable (f : Property → Property)

/-- The criterion with another property in place of its own. -/
def Criterion.mapProperty (c : Criterion) : Criterion := { c with property := c.property.map f }

/-- The sort key with another property in place of its own. -/
def OrderItem.mapProperty (i : OrderItem) : OrderItem := { i with property := f i.property }

/-- The subject with another property in place of its own. -/
def Subject.mapProperty (subject : Subject) : Subject :=
  { subject with property := subject.property.map f }

/-- The criteria with other properties in place of their own. -/
def Predicate.mapProperty (p : Predicate) : Predicate := p.map (List.map (Criterion.mapProperty f))

/-- What stands behind the criteria with other properties in place of its own. -/
def Closing.mapProperty (c : Closing) : Closing :=
  { c with order := c.order.map (OrderItem.mapProperty f) }

/-- The query with other properties in place of its own. -/
def Query.mapProperty (q : Query) : Query where
  verb := q.verb
  subject := q.subject.mapProperty f
  predicate := q.predicate.mapProperty f
  closing := q.closing.mapProperty f

/-- The place with another property in place of its own. -/
def Place.mapProperty : Place → Place
  | .criterion c => .criterion (c.mapProperty f)
  | place => place

/-- The edge with another property in place of its own. -/
def Edge.mapProperty (e : Edge) : Edge := { e with place := e.place.mapProperty f }

/-- How reading goes on, with another property in place of its own. -/
def Next.mapProperty : Next → Next
  | .stop e => .stop (e.mapProperty f)
  | .resume rest => .resume rest

/-- The reading with other properties in place of its own. -/
def Reading.mapProperty (r : Reading) : Reading :=
  { r with query := r.query.mapProperty f, edge := r.edge.mapProperty f }

/-- The property without its category. -/
def Property.uncategorised (p : Property) : Property := { p with category := .other }

/-- A reading with each property in its own place is the same. -/
@[simp] theorem Reading.mapProperty_id (r : Reading) : r.mapProperty id = r := by
  have hcriterion : Criterion.mapProperty id = id := by
    funext c
    simp [Criterion.mapProperty]
  have hitem : OrderItem.mapProperty id = id := by
    funext i
    rfl
  have hplace : ∀ place : Place, place.mapProperty id = place := by
    intro place
    cases place with
    | criterion c => exact congrArg Place.criterion (congrFun hcriterion c)
    | _ => rfl
  simp [mapProperty, Query.mapProperty, Subject.mapProperty, Predicate.mapProperty,
    Closing.mapProperty, Edge.mapProperty, hcriterion, hitem, hplace]

/-! ### Reading over another schema -/

/-- One schema has the properties of another, each with another in its place that has its name. -/
structure Schema.Maps (s s' : Schema) : Prop where
  name_eq : ∀ p, (f p).name = p.name
  mem_of_mem : ∀ p ∈ s.properties, f p ∈ s'.properties
  exists_of_mem : ∀ q ∈ s'.properties, ∃ p ∈ s.properties, q.name = p.name

variable {f}

/-- Properties with the same name have the same identifier. -/
theorem Property.identifier_congr {p q : Property} (h : p.name = q.name) :
    p.identifier = q.identifier := by
  rw [identifier, identifier, h]

namespace Schema

variable {s s' : Schema}

/-- A property in the place of another has its identifier. -/
theorem Maps.identifier_eq (h : s.Maps f s') (p : Property) :
    (f p).identifier = p.identifier :=
  Property.identifier_congr (h.name_eq p)

/-- The property at the head of a text is the one in the place of the property there. -/
theorem Maps.headProperty?_eq (h : s.Maps f s') (t : Text) :
    s'.headProperty? t = (s.headProperty? t).map fun m ↦ (f m.1, m.2) := by
  cases hs : s.headProperty? t with
  | none =>
    rw [Option.map_none, headProperty?_eq_none_iff]
    intro q hq
    obtain ⟨p, hp, hname⟩ := h.exists_of_mem q hq
    rw [Property.identifier_congr hname]
    exact headProperty?_eq_none_iff.mp hs p hp
  | some m =>
    obtain ⟨p, behind⟩ := m
    obtain ⟨hp, ht, hmax⟩ := headProperty?_eq_some_iff.mp hs
    rw [Option.map_some, headProperty?_eq_some_iff, h.identifier_eq]
    refine ⟨h.mem_of_mem p hp, ht, fun q hq hpre ↦ ?_⟩
    obtain ⟨p', hp', hname⟩ := h.exists_of_mem q hq
    rw [Property.identifier_congr hname] at hpre ⊢
    exact hmax p' hp' hpre

end Schema

variable {s s' : Schema} (h : s.Maps f s')

include h

/-- What is asked for is read alike. -/
theorem Subject.read_of_maps (t : Text) :
    read s' t =
      ⟨(read s t).value.mapProperty f, (read s t).defects, (read s t).next.mapProperty f⟩ := by
  have hproperty : ∀ u, readProperty? s' u = (readProperty? s u).map fun m ↦ (f m.1, m.2) := by
    intro u
    rw [readProperty?, readProperty?, h.headProperty?_eq]
    cases s.headProperty? u with
    | none => rfl
    | some m =>
      simp only [Option.map_some, Option.bind_some, Option.map_map]
      rfl
  simp only [read, hproperty, h.headProperty?_eq]
  cases Keyword.read? Word.introducer (readLimit (readDistinct t).2).2 with
  | some behind => rfl
  | none =>
    cases readProperty? s (readLimit (readDistinct t).2).2 with
    | some m => rfl
    | none =>
      cases Keyword.splitAtFirst? id [Word.introducer] (readLimit (readDistinct t).2).2 with
      | some m => rfl
      | none => cases s.headProperty? (readLimit (readDistinct t).2).2 <;> rfl

/-- A criterion is read alike. -/
theorem Criterion.ofText_of_maps (t : Text) : ofText s' t = (ofText s t).mapProperty f := by
  simp only [ofText, h.headProperty?_eq]
  cases s.headProperty? (CaseMarker.cut t).2 with
  | none => rfl
  | some m =>
    simp only [Option.map_some]
    cases Spelling.read? m.2 <;> rfl

namespace Predicate

/-- A criterion is split off alike. -/
theorem splitCriterion_of_maps (t : Text) : splitCriterion s' t = splitCriterion s t := by
  simp only [splitCriterion, h.headProperty?_eq]
  cases s.headProperty? t with
  | none => rfl
  | some m => simp only [Option.map_some, h.identifier_eq]

/-- A section is cut into the same chain. -/
theorem chain_of_maps (t : Text) : chain s' t = chain s t := by
  have hsplit := splitCriterion_of_maps h
  fun_induction chain s t with
  | case1 t before c behind hs rest ih => rw [chain_of_join (hsplit t ▸ hs), ih]
  | case2 t before m behind hs =>
    exact chain_of_word (w := .marker m) (hsplit t ▸ hs) fun k hk ↦ by cases hk
  | case3 t before behind hs =>
    exact chain_of_word (w := .order) (hsplit t ▸ hs) fun k hk ↦ by cases hk
  | case4 t before hs => exact chain_of_none (hsplit t ▸ hs)

/-- A criterion has the same defect. -/
theorem defect?_of_maps (t : Text) : defect? s' t = defect? s t := by
  simp only [defect?, Criterion.ofText_of_maps h, Criterion.mapProperty]
  cases (Criterion.ofText s t).property with
  | none => rfl
  | some p => simp only [Option.map_some, h.name_eq]

/-- Reading goes on alike behind a chain. -/
theorem next_of_maps (m : Chain) : next s' m = (next s m).mapProperty f := by
  simp only [next, Criterion.ofText_of_maps h, Criterion.mapProperty, Option.isSome_map]
  split
  · rfl
  · split <;> rfl

/-- The criteria of a chain are the same. -/
theorem ofChain_of_maps (m : Chain) : ofChain s' m = (ofChain s m).mapProperty f := by
  have hread : Criterion.ofText s' = fun t ↦ (Criterion.ofText s t).mapProperty f :=
    funext (Criterion.ofText_of_maps h)
  rw [ofChain, ofChain, mapProperty, map_branches, hread, List.map_map]
  congr 1
  split <;> rfl

/-- The criteria are read alike. -/
theorem read_of_maps (t : Text) :
    read s' t =
      (read s t).map fun p ↦ ⟨p.value.mapProperty f, p.defects, p.next.mapProperty f⟩ := by
  have hdefect : defect? s' = defect? s := funext (defect?_of_maps h)
  simp only [read, chain_of_maps h, hdefect, ofChain_of_maps h, next_of_maps h]
  split
  · rfl
  · cases (chain s t).emptyBranch? <;> rfl

end Predicate

/-- Sort keys are read alike. -/
theorem OrderItem.readAll_of_maps (t : Text) :
    readAll s' t = ((readAll s t).1.map (mapProperty f), (readAll s t).2) := by
  have hhead := h.headProperty?_eq
  fun_induction readAll s t with
  | case1 t hr => exact readAll_of_none (by rw [hhead, hr]; rfl)
  | case2 t p behind hr d rest hd items rest' hi ih =>
    rw [readAll_of_direction (by rw [hhead, hr]; rfl) hd, ih, hi]
    rfl
  | case3 t p behind hr hd items rest' hi ih =>
    rw [readAll_of_no_direction (by rw [hhead, hr]; rfl) hd, ih, hi]
    rfl

/-- What stands behind the criteria is read alike. -/
theorem Closing.read_of_maps (policy : DirectionPolicy) (t : Text) :
    read policy s' t =
      ((read policy s t).1.mapProperty f, (read policy s t).2.1,
        (read policy s t).2.2.mapProperty f) := by
  have hdefect : ∀ i : OrderItem, OrderItem.defect? policy (i.mapProperty f) =
      OrderItem.defect? policy i := by
    intro i
    simp only [OrderItem.defect?, OrderItem.mapProperty, h.name_eq]
  have hplace : ∀ items : List OrderItem,
      OrderItem.placeAfter (items.map (OrderItem.mapProperty f)) =
        (OrderItem.placeAfter items).mapProperty f := by
    intro items
    simp only [OrderItem.placeAfter, List.getLast?_map]
    cases items.getLast? with
    | none => rfl
    | some i =>
      simp only [Option.map_some, OrderItem.mapProperty]
      split <;> rfl
  have hend : ∀ (items : List OrderItem) (rest : Text),
      OrderItem.endDefects (items.map (OrderItem.mapProperty f)) rest =
        OrderItem.endDefects items rest := by
    intro items rest
    simp only [OrderItem.endDefects, List.map_eq_nil_iff]
  simp only [read]
  split
  · rfl
  · split
    · rfl
    · next behind _ =>
      simp only [OrderItem.readAll_of_maps h, List.filterMap_map, Function.comp_def, hdefect,
        hplace, hend]
      rfl

namespace Grammar

variable (g : Grammar)

private theorem readBehind_of_maps (source verb rest : Text) :
    g.readBehind s' source verb rest =
      (g.readBehind s source verb rest).map (Reading.mapProperty f) := by
  have hsubject := Subject.read_of_maps h rest
  cases hn : (Subject.read s rest).next with
  | stop edge =>
    have hn' : (Subject.read s' rest).next = .stop (edge.mapProperty f) := by
      rw [hsubject, hn]
      rfl
    rw [readBehind_of_stop hn, readBehind_of_stop hn', hsubject]
    rfl
  | resume behind =>
    have hn' : (Subject.read s' rest).next = .resume behind := by
      rw [hsubject, hn]
      rfl
    have hcriteria := Predicate.read_of_maps h behind
    cases hp : Predicate.read s behind with
    | error fault =>
      rw [hp] at hcriteria
      rw [readBehind_of_error hn hp, readBehind_of_error hn' hcriteria]
      rfl
    | ok p =>
      rw [hp] at hcriteria
      cases hpn : p.next with
      | stop edge =>
        have hpn' : p.next.mapProperty f = .stop (edge.mapProperty f) := by
          rw [hpn]
          rfl
        rw [readBehind_of_criteria hn hp hpn, readBehind_of_criteria hn' hcriteria hpn', hsubject]
        rfl
      | resume tail =>
        have hpn' : p.next.mapProperty f = .resume tail := by
          rw [hpn]
          rfl
        rw [readBehind_of_closing hn hp hpn, readBehind_of_closing hn' hcriteria hpn', hsubject,
          Closing.read_of_maps h]
        rfl

/-- Over a schema with other properties in place of its own, every text is read alike. -/
theorem read_of_maps (t : Text) : g.read s' t = (g.read s t).map (Reading.mapProperty f) := by
  simp only [read]
  cases t.find? fun c ↦ !isNameChar c with
  | some c => rfl
  | none =>
    cases Keyword.readLongest? id g.verbs t with
    | none => rfl
    | some m => exact readBehind_of_maps h g t m.1 m.2

end Grammar

omit h

/-! ### The same names in another order -/

namespace Schema

/-- The schema without the categories of its properties. -/
def uncategorised (s : Schema) : Schema where
  properties := s.properties.map Property.uncategorised
  named := by
    intro p hp
    obtain ⟨q, hq, rfl⟩ := List.mem_map.mp hp
    exact s.named q hq
  nodup_identifiers := by
    rw [List.map_map]
    exact s.nodup_identifiers

/-- Two schemas with the same names are the same without categories. -/
theorem maps_uncategorised {s₁ s₂ : Schema}
    (h : ∀ n, n ∈ s₁.properties.map Property.name ↔ n ∈ s₂.properties.map Property.name) :
    s₂.Maps Property.uncategorised s₁.uncategorised where
  name_eq _ := rfl
  mem_of_mem := by
    intro p hp
    obtain ⟨q, hq, hname⟩ := List.mem_map.mp ((h p.name).mpr (List.mem_map_of_mem hp))
    refine List.mem_map.mpr ⟨q, hq, ?_⟩
    rw [Property.uncategorised, Property.uncategorised, hname]
  exists_of_mem := by
    intro p hp
    obtain ⟨q, hq, rfl⟩ := List.mem_map.mp hp
    obtain ⟨r, hr, hname⟩ := List.mem_map.mp ((h q.name).mp (List.mem_map_of_mem hq))
    exact ⟨r, hr, hname.symm⟩

/-- Where each name has the same category, the properties are the same. -/
theorem mem_of_names {s₁ s₂ : Schema}
    (h : ∀ n, n ∈ s₁.properties.map Property.name → n ∈ s₂.properties.map Property.name)
    (hcategory : ∀ p ∈ s₁.properties, ∀ q ∈ s₂.properties, p.name = q.name →
      p.category = q.category) {p : Property} (hp : p ∈ s₁.properties) : p ∈ s₂.properties := by
  obtain ⟨q, hq, hname⟩ := List.mem_map.mp (h p.name (List.mem_map_of_mem hp))
  have heq : p = q := by
    obtain ⟨name, category⟩ := p
    obtain ⟨name', category'⟩ := q
    have hc := hcategory _ hp _ hq hname.symm
    simp_all
  rw [heq]
  exact hq

end Schema

namespace Grammar

/-- The order of the verbs does not matter for what is read. -/
theorem read_of_mem_verbs {g₁ g₂ : Grammar} (hverbs : ∀ v, v ∈ g₁.verbs ↔ v ∈ g₂.verbs)
    (hpolicy : g₁.missingDirection = g₂.missingDirection) (s : Schema) (t : Text) :
    g₁.read s t = g₂.read s t := by
  have hlongest : Keyword.readLongest? id g₁.verbs t = Keyword.readLongest? id g₂.verbs t := by
    refine longest?_congr hverbs fun v w x y hv hw hlen ↦ ?_
    have htv := (Keyword.read?_eq_some_iff.mp hv).1
    have htw := (Keyword.read?_eq_some_iff.mp hw).1
    exact (List.append_inj (htv.symm.trans htw) hlen).1
  simp only [read, readBehind, hlongest, hpolicy]

end Grammar

namespace Reading

/-- The options are in ascending order. -/
theorem pairwise_options (g : Grammar) (s : Schema) (r : Reading) :
    (r.options g s).Pairwise (· < ·) := by
  unfold options
  split
  · exact List.Pairwise.nil
  · exact pairwise_sortedSet _

/-- The options depend neither on the order of the verbs nor on that of the properties. -/
theorem options_congr {g₁ g₂ : Grammar} {s₁ s₂ : Schema}
    (hverbs : ∀ v, v ∈ g₁.verbs ↔ v ∈ g₂.verbs)
    (hpolicy : g₁.missingDirection = g₂.missingDirection)
    (hproperties : ∀ p, p ∈ s₁.properties ↔ p ∈ s₂.properties) (r : Reading) :
    r.options g₁ s₁ = r.options g₂ s₂ := by
  have hidentifiers : ∀ w, w ∈ s₁.identifiers ↔ w ∈ s₂.identifiers := by
    intro w
    simp only [Schema.identifiers, List.mem_map, hproperties]
  have hwords : ∀ w, w ∈ r.edge.place.words g₁ s₁ ↔ w ∈ r.edge.place.words g₂ s₂ := by
    intro w
    cases r.edge.place with
    | verb => exact hverbs w
    | subject _ _ _ => simp only [Place.words, List.mem_append, hidentifiers]
    | introducer => exact Iff.rfl
    | criterionStart _ => simp only [Place.words, List.mem_append, hidentifiers]
    | criterion _ => exact Iff.rfl
    | allIgnoreCase => exact Iff.rfl
    | orderStart => exact hidentifiers w
    | orderProperty =>
      simp only [Place.words, List.mem_append, hpolicy]
      cases g₂.missingDirection with
      | reject => exact Iff.rfl
      | ascending => exact or_congr_right (hidentifiers w)
    | orderDirection => exact hidentifiers w
  refine eq_of_pairwise_lt (pairwise_options g₁ s₁ r) (pairwise_options g₂ s₂ r) fun o ↦ ?_
  simp only [mem_options_iff_exists, hwords, hverbs]

end Reading

/-- Neither the order of declaration nor the categories have a say in what is read. Over schemas
with the same names and grammars with the same verbs and policy, either both readings refuse a text
for the same reason, or they differ in the categories of the properties alone: they have the same
defects and break off at the same place. Where each name has the same category as well, the same
options are offered. -/
theorem Grammar.read_of_same_names {g₁ g₂ : Grammar} {s₁ s₂ : Schema}
    (hnames : ∀ n, n ∈ s₁.properties.map Property.name ↔ n ∈ s₂.properties.map Property.name)
    (hverbs : g₁.verbs.Perm g₂.verbs) (hpolicy : g₁.missingDirection = g₂.missingDirection)
    (t : Text) :
    ((∃ fault, g₁.read s₁ t = .error fault ∧ g₂.read s₂ t = .error fault) ∨
      ∃ r₁ r₂, g₁.read s₁ t = .ok r₁ ∧ g₂.read s₂ t = .ok r₂ ∧ r₁.source = r₂.source ∧
        r₁.query.mapProperty .uncategorised = r₂.query.mapProperty .uncategorised ∧
        r₁.defects = r₂.defects ∧
        r₁.edge.mapProperty .uncategorised = r₂.edge.mapProperty .uncategorised) ∧
    ((∀ p ∈ s₁.properties, ∀ q ∈ s₂.properties, p.name = q.name → p.category = q.category) →
      g₁.options s₁ t = g₂.options s₂ t) := by
  have hverb : ∀ v, v ∈ g₁.verbs ↔ v ∈ g₂.verbs := fun v ↦ hverbs.mem_iff
  constructor
  · have hforget : (g₁.read s₁ t).map (Reading.mapProperty .uncategorised) =
        (g₂.read s₂ t).map (Reading.mapProperty .uncategorised) := by
      rw [← read_of_maps (Schema.maps_uncategorised fun n ↦ Iff.rfl),
        ← read_of_maps (Schema.maps_uncategorised hnames), read_of_mem_verbs hverb hpolicy]
    cases h₁ : g₁.read s₁ t with
    | error fault =>
      cases h₂ : g₂.read s₂ t with
      | error fault' =>
        rw [h₁, h₂] at hforget
        exact Or.inl ⟨fault, rfl, congrArg Except.error (Except.error.inj hforget).symm⟩
      | ok r₂ =>
        rw [h₁, h₂] at hforget
        cases hforget
    | ok r₁ =>
      cases h₂ : g₂.read s₂ t with
      | error fault =>
        rw [h₁, h₂] at hforget
        cases hforget
      | ok r₂ =>
        rw [h₁, h₂] at hforget
        obtain ⟨hsource, hquery, hdefects, hedge⟩ := Reading.mk.inj (Except.ok.inj hforget)
        exact Or.inr ⟨r₁, r₂, rfl, rfl, hsource, hquery, hdefects, hedge⟩
  · intro hcategory
    have hproperties : ∀ p, p ∈ s₁.properties ↔ p ∈ s₂.properties := by
      intro p
      constructor
      · exact Schema.mem_of_names (fun n ↦ (hnames n).mp) hcategory
      · exact Schema.mem_of_names (fun n ↦ (hnames n).mpr)
          fun q hq p hp hname ↦ (hcategory p hp q hq hname.symm).symm
    have hread : g₂.read s₂ t = g₁.read s₁ t := by
      have hmaps : s₁.Maps id s₂ :=
        ⟨fun _ ↦ rfl, fun p hp ↦ (hproperties p).mp hp,
          fun q hq ↦ ⟨q, (hproperties q).mpr hq, rfl⟩⟩
      rw [read_of_maps hmaps, read_of_mem_verbs hverb hpolicy]
      cases g₂.read s₁ t with
      | error fault => rfl
      | ok r => exact congrArg Except.ok r.mapProperty_id
    rw [options, options, hread]
    cases g₁.read s₁ t with
    | error fault => rfl
    | ok r => exact congrArg Except.ok (Reading.options_congr hverb hpolicy hproperties r)

/-- The usual grammar with its verbs in another order. -/
def Grammar.reordered : Grammar :=
  ⟨⟨["query".toList, "find".toList, "read".toList], .reject⟩, by decide, by decide, by decide⟩

/-- The small schema with its properties in another order. -/
def Schema.reordered : Schema :=
  ⟨[⟨"date".toList, .date⟩, ⟨"text".toList, .string⟩], by decide, by decide⟩

/-- A name is read alike over the small schema and the reordered one, and offered the same. -/
theorem Grammar.read_of_same_names_sample :
    (∃ r₁ r₂, standard.read .sample "findTop5TextByDateIsAfterOrText".toList = .ok r₁ ∧
      reordered.read .reordered "findTop5TextByDateIsAfterOrText".toList = .ok r₂ ∧
      r₁.query.mapProperty .uncategorised = r₂.query.mapProperty .uncategorised ∧
      r₁.defects = r₂.defects ∧
      r₁.edge.mapProperty .uncategorised = r₂.edge.mapProperty .uncategorised) ∧
    standard.options .sample "findTop5TextByDateIsAfterOrText".toList =
      reordered.options .reordered "findTop5TextByDateIsAfterOrText".toList := by
  have hnames : ∀ n, n ∈ Schema.sample.properties.map Property.name ↔
      n ∈ Schema.reordered.properties.map Property.name := by
    have hperm : (Schema.sample.properties.map Property.name).Perm
        (Schema.reordered.properties.map Property.name) := by decide
    exact fun n ↦ hperm.mem_iff
  have hcategory : ∀ p ∈ Schema.sample.properties, ∀ q ∈ Schema.reordered.properties,
      p.name = q.name → p.category = q.category := by decide
  have hverbs : standard.verbs.Perm reordered.verbs := by decide
  have hpolicy : standard.missingDirection = reordered.missingDirection := rfl
  obtain ⟨hread, hoptions⟩ :=
    read_of_same_names hnames hverbs hpolicy "findTop5TextByDateIsAfterOrText".toList
  refine ⟨?_, hoptions hcategory⟩
  rcases hread with ⟨fault, hfault, -⟩ | ⟨r₁, r₂, h₁, h₂, -, hquery, hdefects, hedge⟩
  · have hok : (standard.read .sample "findTop5TextByDateIsAfterOrText".toList).toOption.isSome =
        true := by decide +kernel
    rw [hfault] at hok
    cases hok
  · exact ⟨r₁, r₂, h₁, h₂, hquery, hdefects, hedge⟩

end QueryNames
