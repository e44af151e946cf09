import QueryNames.Criterion
import QueryNames.Text.Numeral

/-!
# Queries

What a query name says: what is asked for, which criteria it has to meet, and how the results are
sorted. Each part has a written form; the name of a query is the concatenation of these.
-/

namespace QueryNames

/-- How many results are asked for. -/
inductive Limit where
  /-- A limit word without a number. -/
  | implicit
  | explicit (count : Nat)
deriving DecidableEq, Repr

namespace Limit

/-- The largest number a limit can have. -/
def largest : Nat := 4294967295

/-- The limit that a run of digits behind a limit word gives: no digits leave it implicit, and the
value must be positive and not too large. -/
def ofDigits? (ds : Text) : Option Limit :=
  if ds = [] then some .implicit
  else
    let n := Text.numeralValue ds
    if 0 < n ∧ n ≤ largest then some (.explicit n) else none

/-- The number of a limit, if it has one. -/
def count? : Limit → Option Nat
  | .implicit => none
  | .explicit n => some n

/-- The written form of a limit that begins with the given word. -/
def text (w : LimitWord) (l : Limit) : Text := w.word ++ (l.count?.map Text.numeral).getD []

end Limit

/-- What is asked for. -/
structure Subject where
  distinct : Bool
  limit : Option Limit
  property : Option Property
deriving DecidableEq, Repr

namespace Subject

/-- The subject that asks for nothing in particular. -/
def plain : Subject := ⟨false, none, none⟩

/-- The written form of a subject whose limit begins with the given word. -/
def text (w : LimitWord) (s : Subject) : Text :=
  (if s.distinct then Word.distinct else []) ++ (s.limit.map (Limit.text w)).getD [] ++
    (s.property.map Property.identifier).getD []

end Subject

/-- The criteria of a query: branches joined by `Or`, each with criteria joined by `And`. -/
abbrev Predicate := List (List Criterion)

namespace Predicate

/-- All criteria in order. -/
def criteria (p : Predicate) : List Criterion := p.flatten

/-- The last criterion of the last branch. -/
def last? (p : Predicate) : Option Criterion := p.getLast?.bind List.getLast?

/-- The written form of the criteria. -/
def text (p : Predicate) : Text :=
  Conjunction.or.word.intercalate
    (p.map fun branch ↦ Conjunction.and.word.intercalate (branch.map Criterion.text))

end Predicate

/-- A sort key. -/
structure OrderItem where
  property : Property
  /-- The direction as written. -/
  direction : Option Direction
deriving DecidableEq, Repr

namespace OrderItem

/-- The direction, which is ascending if none is written. -/
def effectiveDirection (i : OrderItem) : Direction := i.direction.getD .ascending

/-- The written form of a sort key. -/
def text (i : OrderItem) : Text :=
  i.property.identifier ++ (i.direction.map Direction.word).getD []

/-- The written form of an order clause. -/
def clause (items : List OrderItem) : Text := Word.orderBy ++ items.flatMap text

end OrderItem

/-- What stands behind the criteria. -/
structure Closing where
  /-- The marker that lets all criteria ignore letter case. -/
  allIgnoreCase : Option CaseMarker
  /-- The sort keys. -/
  order : List OrderItem
deriving DecidableEq, Repr

namespace Closing

/-- Nothing stands behind the criteria. -/
def absent : Closing := ⟨none, []⟩

/-- The written form of what stands behind the criteria. -/
def text (c : Closing) : Text :=
  (c.allIgnoreCase.map CaseMarker.allWord).getD [] ++
    if c.order = [] then [] else OrderItem.clause c.order

end Closing

/-- What a query name says. -/
structure Query where
  /-- The word the name begins with, unless none is known. -/
  verb : Option Text
  subject : Subject
  predicate : Predicate
  closing : Closing
deriving DecidableEq, Repr

namespace Query

/-- The query of a name that says nothing. -/
def blank : Query := ⟨none, .plain, [], .absent⟩

/-- The explicit number of results, if one is written. -/
def explicitLimit? (q : Query) : Option Nat := q.subject.limit.bind Limit.count?

/-- How letter case counts for a criterion; the marker for all criteria goes first. -/
def caseMode (q : Query) (c : Criterion) : CaseMode :=
  if q.closing.allIgnoreCase.isSome then .all else c.caseMode

/-- The number of arguments that all criteria take together. -/
def arity (q : Query) : Nat := (q.predicate.criteria.map Criterion.arity).foldr (· + ·) 0

/-- The name of a query whose limit begins with the given word. -/
def text (w : LimitWord) (q : Query) : Text :=
  q.verb.getD [] ++ q.subject.text w ++ Word.introducer ++ q.predicate.text ++ q.closing.text

end Query

end QueryNames
