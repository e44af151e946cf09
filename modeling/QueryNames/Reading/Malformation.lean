import QueryNames.Vocabulary

/-!
# Malformed texts

The few texts that reading refuses outright. Everything else that is wrong with a name is a defect
of its reading.
-/

namespace QueryNames

/-- Why a text does not have the shape of a query name. -/
inductive Malformation where
  /-- A character that no name may hold. -/
  | strayCharacter (char : Char)
  /-- No criterion stands next to a conjunction that has more text behind it. -/
  | emptyBranch (conjunction : Conjunction)
  /-- There is more than one order clause. -/
  | repeatedOrder
deriving DecidableEq, Repr

end QueryNames
