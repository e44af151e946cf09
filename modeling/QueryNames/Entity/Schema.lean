import QueryNames.Entity.Property
import QueryNames.Text.Longest

/-!
# Schemas

A schema lists the properties of an entity in the order of their declaration. Its names can stand in
a query name, and no two of them take the same form there, so the longest identifier at the head of
a text belongs to exactly one property.
-/

namespace QueryNames

namespace Property

/-- A name can stand in a query name if it has characters, all of them name characters. -/
def IsNamed (p : Property) : Prop := p.name ≠ [] ∧ p.name.all Text.isNameChar

instance (p : Property) : Decidable p.IsNamed := inferInstanceAs (Decidable (_ ∧ _))

/-- The identifier of a named property is not empty. -/
theorem IsNamed.identifier_ne_nil {p : Property} (h : p.IsNamed) : p.identifier ≠ [] := by
  rw [← List.length_pos_iff, length_identifier]
  exact List.length_pos_iff.mpr h.1

end Property

/-- The properties of an entity. -/
structure Schema where
  properties : List Property
  named : ∀ p ∈ properties, p.IsNamed
  nodup_identifiers : (properties.map Property.identifier).Nodup
deriving DecidableEq, Repr

namespace Schema

/-- Why a list of properties is no schema. -/
inductive Fault where
  | emptyName
  | notIdentifier (name : Text)
  | repeated (name : Text)
deriving DecidableEq, Repr

/-- The first fault of a list of properties that stands behind properties with the identifiers
`seen`. -/
def faultAfter? (seen : List Text) : List Property → Option Fault
  | [] => none
  | p :: rest =>
    if p.name = [] then some .emptyName
    else if !p.name.all Text.isNameChar then some (.notIdentifier p.name)
    else if seen.contains p.identifier then some (.repeated p.name)
    else faultAfter? (p.identifier :: seen) rest

/-- The first fault of a list of properties. -/
def fault? (properties : List Property) : Option Fault := faultAfter? [] properties

private theorem faultAfter?_eq_none_iff (seen : List Text) (ps : List Property) :
    faultAfter? seen ps = none ↔
      (∀ p ∈ ps, p.IsNamed ∧ p.identifier ∉ seen) ∧ (ps.map Property.identifier).Nodup := by
  induction ps generalizing seen with
  | nil => simp [faultAfter?]
  | cons p ps ih =>
    simp only [faultAfter?, List.forall_mem_cons, List.map_cons, List.nodup_cons]
    split
    · next h => simp [Property.IsNamed, h]
    · next h =>
      split
      · next h' =>
        have hn : ¬p.IsNamed := fun hn ↦ by simp [hn.2] at h'
        simp [hn]
      · next h' =>
        split
        · next h'' => simp [List.contains_iff_mem.mp h'']
        · next h'' =>
          rw [List.contains_iff_mem] at h''
          rw [ih]
          simp only [Bool.not_eq_true, Bool.not_eq_false'] at h'
          simp only [List.mem_cons, not_or, List.mem_map, not_exists, not_and]
          constructor
          · rintro ⟨hall, hnd⟩
            exact ⟨⟨⟨⟨h, h'⟩, h''⟩, fun q hq ↦ ⟨(hall q hq).1, (hall q hq).2.2⟩⟩,
              fun q hq ↦ (hall q hq).2.1, hnd⟩
          · rintro ⟨⟨_, hall⟩, hne, hnd⟩
            exact ⟨fun q hq ↦ ⟨(hall q hq).1, hne q hq, (hall q hq).2⟩, hnd⟩

/-- A list has no fault exactly when its names can stand in a query name and no two take the same
form there. -/
theorem fault?_eq_none_iff (ps : List Property) :
    fault? ps = none ↔
      (∀ p ∈ ps, p.IsNamed) ∧ (ps.map Property.identifier).Nodup := by
  simp [fault?, faultAfter?_eq_none_iff]

/-- The schema of a list of properties, or its first fault. -/
def ofList? (properties : List Property) : Except Fault Schema :=
  match h : fault? properties with
  | some fault => .error fault
  | none =>
    .ok ⟨properties, ((fault?_eq_none_iff _).mp h).1, ((fault?_eq_none_iff _).mp h).2⟩

/-- The schema without properties. -/
def empty : Schema := ⟨[], by simp, by simp⟩

/-- The identifiers in the order of declaration. -/
def identifiers (s : Schema) : List Text := s.properties.map Property.identifier

/-- The property with the longest identifier at the head of a text, and the text behind it. The
identifier need not end where a hump ends. -/
def headProperty? (s : Schema) (t : Text) : Option (Property × Text) :=
  Text.longest? (·.name.length) (·.strip? t) s.properties

/-- The property at the head of a text is declared, and the text begins with its identifier. -/
theorem eq_of_headProperty? {s : Schema} {t behind : Text} {p : Property}
    (h : s.headProperty? t = some (p, behind)) :
    p ∈ s.properties ∧ t = p.identifier ++ behind := by
  obtain ⟨hp, hr⟩ := Text.of_longest? h
  exact ⟨hp, (Property.strip?_eq_some_iff.mp hr).2⟩

/-- What is left behind a property ends the text. -/
theorem suffix_of_headProperty? {s : Schema} {t behind : Text} {p : Property}
    (h : s.headProperty? t = some (p, behind)) : behind <:+ t :=
  ⟨p.identifier, (eq_of_headProperty? h).2.symm⟩

/-- Behind a property less text is left. -/
theorem length_lt_of_headProperty? {s : Schema} {t behind : Text} {p : Property}
    (h : s.headProperty? t = some (p, behind)) : behind.length < t.length := by
  obtain ⟨hp, rfl⟩ := eq_of_headProperty? h
  have := List.length_pos_iff.mpr (s.named p hp).identifier_ne_nil
  rw [List.length_append]
  omega

end Schema

end QueryNames
