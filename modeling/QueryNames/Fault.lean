import QueryNames.Dialect
import QueryNames.Entity.Schema
import QueryNames.Reading.Malformation
import QueryNames.Text.Hump
import QueryNames.Text.Numeral

/-!
# Faults

Everything that can be wrong with what a caller hands in. A fault is an unusable argument or a text
without the shape of a query name; a name that is only incomplete has defects instead.
-/

namespace QueryNames

/-- What is wrong with what a caller has handed in. -/
inductive Fault where
  /-- A text to be cut into humps holds a character that belongs to none. -/
  | unexpectedCharacter (source : Text) (stray : StrayCharacter)
  | schema (fault : Schema.Fault)
  | dialect (fault : Dialect.Fault)
  | malformed (source : Text) (malformation : Malformation)
  /-- Stored metadata cannot be read. -/
  | unreadable
deriving DecidableEq, Repr

/-- The kinds of faults that callers tell apart. -/
inductive FaultKind where
  | invalidArgument
  | emptyBranch
  | repeatedOrder
  | configuration
deriving DecidableEq, Repr

namespace Schema.Fault

/-- The fault of a list of properties in words. -/
def message : Schema.Fault → Text
  | .emptyName => "property name must not be empty".toList
  | .notIdentifier name => "property name '".toList ++ name ++ "' is not an identifier".toList
  | .repeated name => "property '".toList ++ name ++ "' is declared more than once".toList

end Schema.Fault

namespace Dialect.Fault

/-- The fault of a dialect in words. -/
def message : Dialect.Fault → Text
  | .noVerbs => "at least one query prefix is required".toList
  | .notVerb word =>
    "query prefix '".toList ++ word ++ "' must be a lowercase-initial word".toList
  | .repeated verb => "query prefix '".toList ++ verb ++ "' is listed twice".toList

end Dialect.Fault

namespace StrayCharacter

/-- The place of a stray character of a text in words. -/
def message (source : Text) (stray : StrayCharacter) : Text :=
  "unexpected '".toList ++ [stray.char] ++ "' at offset ".toList ++ Text.numeral stray.offset ++
    " in '".toList ++ source ++ "'".toList

end StrayCharacter

namespace Malformation

/-- The kind of a malformation. -/
def kind : Malformation → FaultKind
  | .strayCharacter _ => .invalidArgument
  | .emptyBranch _ => .emptyBranch
  | .repeatedOrder => .repeatedOrder

/-- The malformation of a text in words. -/
def message (source : Text) : Malformation → Text
  | .strayCharacter c =>
    "query name '".toList ++ source ++ "' contains '".toList ++ [c] ++ "'".toList
  | .emptyBranch c =>
    "Malformed query name '".toList ++ source ++ "': '".toList ++ c.word ++
      "' has an empty predicate next to it".toList
  | .repeatedOrder =>
    "Malformed query name '".toList ++ source ++ "': more than one OrderBy clause".toList

end Malformation

namespace Fault

/-- The kind of a fault. -/
def kind : Fault → FaultKind
  | .unexpectedCharacter _ _ | .schema _ | .dialect _ => .invalidArgument
  | .malformed _ m => m.kind
  | .unreadable => .configuration

/-- Whether a text does not have the shape of a query name. -/
def isMalformed (f : Fault) : Bool :=
  match f.kind with
  | .emptyBranch | .repeatedOrder => true
  | .invalidArgument | .configuration => false

/-- Whether an argument cannot be used. -/
def isInvalidArgument (f : Fault) : Bool := !f.isMalformed

/-- What is wrong, without the kind of the fault. -/
def detail : Fault → Text
  | .unexpectedCharacter source stray => stray.message source
  | .schema fault => fault.message
  | .dialect fault => fault.message
  | .malformed source m => m.message source
  | .unreadable => "unreadable metadata".toList

/-- The fault in words. -/
def message (f : Fault) : Text :=
  match f.kind with
  | .invalidArgument => "Invalid argument: ".toList ++ f.detail
  | .configuration => "Configuration error: ".toList ++ f.detail
  | .emptyBranch | .repeatedOrder => f.detail

end Fault

end QueryNames
