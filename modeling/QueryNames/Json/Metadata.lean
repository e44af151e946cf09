import QueryNames.Fault
import QueryNames.Json.Printer
import QueryNames.Json.Reader

/-!
# Stored metadata

Schemas and dialects are kept as JSON. A structure is written as an object and may also be given as
an array of its fields in order; fields that are not known are skipped. A name from a fixed list is
written as a string and may also be given as an object that maps it to null. The whole text is read
first, and what it says is checked afterwards.
-/

namespace QueryNames

namespace Json

/-- The value of a field: nothing when the object lacks it, and a failure when it is given twice. -/
def field? (name : Text) (members : List (Text × Json)) : Option (Option Json) :=
  match members.filter (·.1 = name) with
  | [] => some none
  | [(_, value)] => some (some value)
  | _ => none

/-- The entry of a fixed list whose label a value names. -/
def choice? {α : Type} (label : α → String) (table : List α) (v : Json) : Option α :=
  let name :=
    match v with
    | .object [(key, .null)] => JsonLetter.toText? key
    | v => v.toText?
  name.bind fun name ↦ table.find? fun a ↦ (label a).toList = name

end Json

namespace Property

/-- A property as stored. -/
def toJson (p : Property) : Json :=
  .record [("name".toList, .ofText p.name), ("category".toList, .ofText p.category.label.toList)]

/-- Reads a stored property; it needs both fields. -/
def ofJson? (v : Json) : Option Property :=
  match v with
  | .array [name, category] => build name category
  | .array _ => none
  | v => do
    let members ← v.toMembers?
    let name ← Json.field? "name".toList members
    let category ← Json.field? "category".toList members
    build (← name) (← category)
where
  build (name category : Json) : Option Property := do
    return ⟨← name.toText?, ← category.choice? Category.label Category.all⟩

end Property

namespace Schema

/-- A list of properties as stored. -/
def listToJson (properties : List Property) : Json := .array (properties.map Property.toJson)

/-- A schema as stored. -/
def toJson (s : Schema) : Json := listToJson s.properties

/-- Reads a stored list of properties. -/
def listOfJson? (v : Json) : Option (List Property) :=
  v.toList?.bind fun items ↦ items.mapM Property.ofJson?

/-- The schema that a text holds. -/
def load? (t : Text) : Except QueryNames.Fault Schema :=
  match (Json.ofText? t).bind listOfJson? with
  | none => .error .unreadable
  | some properties => (ofList? properties).mapError .schema

end Schema

namespace Dialect

/-- A dialect as stored. -/
def toJson (d : Dialect) : Json :=
  .record
    [("prefixes".toList, .array (d.verbs.map .ofText)),
      ("missing_direction".toList, .ofText d.missingDirection.label.toList)]

/-- Reads a stored dialect; a field that is left out has its standard value. -/
def ofJson? (v : Json) : Option Dialect :=
  match v with
  | .array [] => build none none
  | .array [verbs] => build (some verbs) none
  | .array [verbs, missingDirection] => build (some verbs) (some missingDirection)
  | .array _ => none
  | v => do
    let members ← v.toMembers?
    build (← Json.field? "prefixes".toList members)
      (← Json.field? "missing_direction".toList members)
where
  build (verbs missingDirection : Option Json) : Option Dialect := do
    let verbs ← match verbs with
      | some v => v.toList?.bind fun items ↦ items.mapM Json.toText?
      | none => some standard.verbs
    let missingDirection ← match missingDirection with
      | some v => v.choice? DirectionPolicy.label DirectionPolicy.all
      | none => some standard.missingDirection
    return ⟨verbs, missingDirection⟩

/-- The dialect that a text holds, whether or not a grammar has it. -/
def read? (t : Text) : Option Dialect := (Json.ofText? t).bind ofJson?

/-- The dialect of a grammar that a text holds. -/
def load? (t : Text) : Except QueryNames.Fault Dialect :=
  match read? t with
  | none => .error .unreadable
  | some d =>
    match d.fault? with
    | some fault => .error (.dialect fault)
    | none => .ok d

end Dialect

end QueryNames
