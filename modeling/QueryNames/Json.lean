import QueryNames.Json.Letter
import QueryNames.Text.Numeral

/-!
# JSON values

Metadata is kept as JSON. Numbers and strings stay as they are written, because most of them are
skipped; a reader interprets those it uses.
-/

namespace QueryNames

/-- A JSON value. -/
inductive Json where
  | null
  | bool (value : Bool)
  | number (literal : Text)
  | string (letters : List JsonLetter)
  | array (items : List Json)
  | object (members : List (List JsonLetter × Json))
deriving Repr

namespace Json

/-- A text as a value. -/
def ofText (t : Text) : Json := .string (JsonLetter.ofText t)

/-- A number as a value. -/
def ofNat (n : Nat) : Json := .number (Text.numeral n)

/-- The object with the given keys and values. -/
def record (members : List (Text × Json)) : Json :=
  .object (members.map fun m ↦ (JsonLetter.ofText m.1, m.2))

/-- The text of a string. -/
def toText? : Json → Option Text
  | .string letters => JsonLetter.toText? letters
  | _ => none

/-- The items of an array. -/
def toList? : Json → Option (List Json)
  | .array items => some items
  | _ => none

/-- The value of a number that is written with digits alone. -/
def toNat? : Json → Option Nat
  | .number literal => if literal.all Char.isDigit then some (Text.numeralValue literal) else none
  | _ => none

/-- The members of an object, unless half a pair of code units stands alone in a key. -/
def toMembers? : Json → Option (List (Text × Json))
  | .object members => members.mapM fun m ↦ (JsonLetter.toText? m.1).map (·, m.2)
  | _ => none

end Json

end QueryNames
