import QueryNames.Dialect
import QueryNames.Query

/-!
# Complete queries

A query that a grammar can write down in full: every part it needs is there and every property is
declared.
-/

namespace QueryNames

/-- A criterion that is written in full with a declared property. -/
structure Criterion.IsDeclared (s : Schema) (c : Criterion) : Prop where
  property_mem : ∃ p ∈ s.properties, c.property = some p
  residue_eq_nil : c.residue = []

/-- A sort key that a grammar allows. -/
structure OrderItem.IsDeclared (g : Grammar) (s : Schema) (i : OrderItem) : Prop where
  property_mem : i.property ∈ s.properties
  direction_isSome : g.missingDirection = .reject → i.direction.isSome

/-- A query that a grammar can write down in full. -/
structure Query.IsComplete (g : Grammar) (s : Schema) (q : Query) : Prop where
  verb_mem : ∃ v ∈ g.verbs, q.verb = some v
  limit_bounds : ∀ n, q.subject.limit = some (.explicit n) → 0 < n ∧ n ≤ Limit.largest
  subject_mem : ∀ p, q.subject.property = some p → p ∈ s.properties
  predicate_ne_nil : q.predicate ≠ []
  branch_ne_nil : ∀ branch ∈ q.predicate, branch ≠ []
  criteria : ∀ c ∈ q.predicate.criteria, c.IsDeclared s
  order : ∀ i ∈ q.closing.order, i.IsDeclared g s

end QueryNames
