import QueryNames.Query
import QueryNames.Query.Defect

/-!
# The edge of what has been read

Where the reading of a name ran out: the place in the grammar and the text there that is no complete
word. Completion starts from it.
-/

namespace QueryNames

/-- A place in the grammar. -/
inductive Place where
  /-- Before the verb. -/
  | verb
  /-- Behind the verb; the flags say which parts of the subject have been read. -/
  | subject (distinct hasLimit hasNumber : Bool)
  /-- Behind the property that is asked for. -/
  | introducer
  /-- Where a criterion has to begin. -/
  | criterionStart (behindOr : Bool)
  /-- Inside a criterion whose property is known. -/
  | criterion (last : Criterion)
  /-- Behind the marker for all criteria. -/
  | allIgnoreCase
  /-- Where the first sort key has to begin. -/
  | orderStart
  /-- Behind the property of a sort key. -/
  | orderProperty
  /-- Behind the direction of a sort key. -/
  | orderDirection
deriving DecidableEq, Repr

/-- Where reading ran out. -/
structure Edge where
  place : Place
  /-- The text that is no complete word. -/
  residue : Text
deriving DecidableEq, Repr

/-- How reading goes on behind a section of a name. -/
inductive Next where
  | stop (edge : Edge)
  | resume (rest : Text)
deriving DecidableEq, Repr

/-- What a section of a name gives. -/
structure Passage (α : Type) where
  value : α
  defects : List Defect
  next : Next
deriving DecidableEq, Repr

end QueryNames
