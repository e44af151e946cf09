import QueryNames.Json

/-!
# Reading JSON

The strict grammar of JSON: blanks are space, tab, line feed and carriage return, numbers have no
leading zeros, a comma stands only between two items, and nothing follows the value. Every reader
gives back the text behind what it has read.
-/

namespace QueryNames.Json

/-- The characters that may stand between the tokens of a JSON text. -/
def isBlank (c : Char) : Bool := c == ' ' || c == '\t' || c == '\n' || c == '\r'

/-- The text behind leading blanks. -/
def skipBlanks (t : Text) : Text := t.dropWhile isBlank

/-- Reads digits, of which there must be one. -/
def readDigits? (t : Text) : Option (Text × Text) :=
  if Text.digits t = [] then none else some (Text.digits t, Text.behindDigits t)

/-- Reads the part of a number before its point: a zero, or digits that begin with another. -/
def readWhole? : Text → Option (Text × Text)
  | '0' :: t => some (['0'], t)
  | t => readDigits? t

/-- Reads a point and the digits behind it, if there is a point. -/
def readFraction? : Text → Option (Text × Text)
  | '.' :: t => (readDigits? t).map fun m ↦ ('.' :: m.1, m.2)
  | t => some ([], t)

/-- Reads the sign of an exponent, if there is one. -/
def readSign : Text → Text × Text
  | '+' :: t => (['+'], t)
  | '-' :: t => (['-'], t)
  | t => ([], t)

/-- Reads an exponent, if there is one. -/
def readExponent? : Text → Option (Text × Text)
  | c :: t =>
    if c = 'e' ∨ c = 'E' then
      let (sign, t) := readSign t
      (readDigits? t).map fun m ↦ (c :: sign ++ m.1, m.2)
    else some ([], c :: t)
  | [] => some ([], [])

/-- Reads a number. -/
def readNumber? (t : Text) : Option (Text × Text) := do
  let (sign, t) := match t with
    | '-' :: t => (['-'], t)
    | t => ([], t)
  let (whole, t) ← readWhole? t
  let (fraction, t) ← readFraction? t
  let (exponent, t) ← readExponent? t
  return (sign ++ whole ++ fraction ++ exponent, t)

/-- Reads a fixed word that stands for a value. -/
def readWord? (word : String) (value : Json) (t : Text) : Option (Json × Text) :=
  (word.toList.isPrefixOf? t).map (value, ·)

/-- Reads a key and the colon behind it. -/
def readKey? (t : Text) : Option (List JsonLetter × Text) :=
  match skipBlanks t with
  | '"' :: t =>
    match JsonLetter.readAll? t with
    | some (key, t) =>
      match skipBlanks t with
      | ':' :: t => some (key, t)
      | _ => none
    | none => none
  | _ => none

mutual

/-- Reads a value; `fuel` bounds the number of nested readings. -/
def readValue? (fuel : Nat) (t : Text) : Option (Json × Text) :=
  match fuel with
  | 0 => none
  | fuel + 1 =>
    match skipBlanks t with
    | 'n' :: t => readWord? "ull" .null t
    | 't' :: t => readWord? "rue" (.bool true) t
    | 'f' :: t => readWord? "alse" (.bool false) t
    | '"' :: t => (JsonLetter.readAll? t).map fun m ↦ (.string m.1, m.2)
    | '[' :: t =>
      match skipBlanks t with
      | ']' :: t => some (.array [], t)
      | t => (readItems? fuel t).map fun m ↦ (.array m.1, m.2)
    | '\x7b' :: t =>
      match skipBlanks t with
      | '\x7d' :: t => some (.object [], t)
      | t => (readMembers? fuel t).map fun m ↦ (.object m.1, m.2)
    | t => (readNumber? t).map fun m ↦ (.number m.1, m.2)

/-- Reads the items of an array that is not empty, up to its end. -/
def readItems? (fuel : Nat) (t : Text) : Option (List Json × Text) :=
  match fuel with
  | 0 => none
  | fuel + 1 =>
    match readValue? fuel t with
    | none => none
    | some (item, t) =>
      match skipBlanks t with
      | ',' :: t => (readItems? fuel t).map fun m ↦ (item :: m.1, m.2)
      | ']' :: t => some ([item], t)
      | _ => none

/-- Reads the members of an object that is not empty, up to its end. -/
def readMembers? (fuel : Nat) (t : Text) : Option (List (List JsonLetter × Json) × Text) :=
  match fuel with
  | 0 => none
  | fuel + 1 =>
    match readKey? t with
    | none => none
    | some (key, t) =>
      match readValue? fuel t with
      | none => none
      | some (value, t) =>
        match skipBlanks t with
        | ',' :: t => (readMembers? fuel t).map fun m ↦ ((key, value) :: m.1, m.2)
        | '\x7d' :: t => some ([(key, value)], t)
        | _ => none

end

/-- The value that a text holds. Two nested readings pass a character at least, so the fuel is
enough. -/
def ofText? (t : Text) : Option Json :=
  match readValue? (2 * t.length + 2) t with
  | some (value, rest) => if skipBlanks rest = [] then some value else none
  | none => none

end QueryNames.Json
