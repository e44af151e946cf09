import QueryNames.Json

/-!
# Writing JSON

Values are written without blanks, and only the characters that must be escaped are.
-/

namespace QueryNames.Json

/-- A string as it is written. -/
def quoted (letters : List JsonLetter) : Text :=
  ['"'] ++ letters.flatMap JsonLetter.text ++ ['"']

mutual

/-- A value as it is written. -/
def text : Json → Text
  | .null => "null".toList
  | .bool true => "true".toList
  | .bool false => "false".toList
  | .number literal => literal
  | .string letters => quoted letters
  | .array items => ['['] ++ itemsText items ++ [']']
  | .object members => ['\x7b'] ++ membersText members ++ ['\x7d']

/-- The items of an array with commas between them. -/
def itemsText : List Json → Text
  | [] => []
  | [item] => item.text
  | item :: rest => item.text ++ [','] ++ itemsText rest

/-- The members of an object with commas between them. -/
def membersText : List (List JsonLetter × Json) → Text
  | [] => []
  | [(key, value)] => quoted key ++ [':'] ++ value.text
  | (key, value) :: rest => quoted key ++ [':'] ++ value.text ++ [','] ++ membersText rest

end

end QueryNames.Json
