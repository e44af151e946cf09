/-!
# Categories of values

What kind of value a property holds. Completion offers only the operators that suit the category;
reading a name never looks at it.
-/

namespace QueryNames

/-- What kind of value a property holds. -/
inductive Category where
  /-- Text. -/
  | string
  /-- Numbers that may be missing. -/
  | boxedNumber
  /-- Numbers that are never missing. -/
  | primitiveNumber
  /-- Dates and times. -/
  | date
  /-- Anything else. -/
  | other
deriving DecidableEq, Repr

namespace Category

/-- All categories. -/
def all : List Category := [.string, .boxedNumber, .primitiveNumber, .date, .other]

/-- The name of a category in stored metadata. -/
def label : Category → String
  | .string => "String"
  | .boxedNumber => "BoxedNumber"
  | .primitiveNumber => "PrimitiveNumber"
  | .date => "Date"
  | .other => "Other"

/-- The name of a category as people read it. -/
def name : Category → String
  | .string => "string"
  | .boxedNumber => "boxed number"
  | .primitiveNumber => "primitive number"
  | .date => "date"
  | .other => "other"

/-- Whether the values are numbers. -/
def isNumeric : Category → Bool
  | .boxedNumber | .primitiveNumber => true
  | _ => false

/-- Whether a value may be missing. -/
def isNullable : Category → Bool
  | .primitiveNumber => false
  | _ => true

/-- Every category is in the list of all. -/
theorem mem_all (c : Category) : c ∈ all := by cases c <;> decide

end Category

end QueryNames
