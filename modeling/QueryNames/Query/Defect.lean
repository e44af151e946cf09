import QueryNames.Vocabulary

/-!
# Defects

Why a text that has the shape of a query name is not a valid one. Each defect keeps the text that
could not be read.
-/

namespace QueryNames

/-- Why a text is not a valid query name. -/
inductive Defect where
  /-- The text begins with no verb. -/
  | missingVerb
  /-- Nothing introduces the criteria. -/
  | missingBy
  /-- The number behind a limit word is zero or too large. -/
  | invalidLimit (digits : Text)
  /-- What is asked for is no property. -/
  | unknownSubject (text : Text)
  /-- There are no criteria. -/
  | emptyPredicate
  /-- A criterion begins with no property. -/
  | unknownProperty (text : Text)
  /-- Something that is no operator follows a property. -/
  | unknownOperator (property text : Text)
  /-- No criterion follows the last conjunction. -/
  | danglingConjunction (conjunction : Conjunction)
  /-- The marker for all criteria is written again. -/
  | repeatedAllIgnoreCase
  /-- Something that is no order clause follows the marker for all criteria. -/
  | unexpectedText (text : Text)
  /-- There are no sort keys. -/
  | emptyOrder
  /-- A sort key begins with no property. -/
  | unknownOrderProperty (text : Text)
  /-- A sort key has no direction. -/
  | missingDirection (property : Text)
deriving DecidableEq, Repr

namespace Defect

private def quoted (t : Text) : Text := "'".toList ++ t ++ "'".toList

/-- The defect in words. -/
def message : Defect → Text
  | .missingVerb => "query name does not start with a known prefix".toList
  | .missingBy => "missing 'By'".toList
  | .invalidLimit digits => "invalid result limit ".toList ++ quoted digits
  | .unknownSubject text => "unknown subject property ".toList ++ quoted text
  | .emptyPredicate => "no predicate after 'By'".toList
  | .unknownProperty text => "unknown property in ".toList ++ quoted text
  | .unknownOperator property text =>
    "unrecognized operator ".toList ++ quoted text ++ " after ".toList ++ quoted property
  | .danglingConjunction c => quoted c.word ++ " is not followed by a predicate".toList
  | .repeatedAllIgnoreCase => "'AllIgnoreCase' given more than once".toList
  | .unexpectedText text => "unexpected input ".toList ++ quoted text
  | .emptyOrder => "no property after 'OrderBy'".toList
  | .unknownOrderProperty text => "unknown order property in ".toList ++ quoted text
  | .missingDirection property =>
    "order property ".toList ++ quoted property ++ " has no direction".toList

end Defect

end QueryNames
