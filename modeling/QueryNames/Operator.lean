import QueryNames.Entity.Category
import QueryNames.Text.Longest
import QueryNames.Vocabulary

/-!
# Operators

The catalogue of comparisons that a criterion can make: how each is spelled, how many arguments it
takes and which categories it suits. Suitability matters to completion alone; in a name any operator
may follow any property.
-/

namespace QueryNames

/-- A comparison that a criterion makes. -/
inductive Operator where
  | equals
  | differs
  | isNull
  | isNotNull
  | isIn
  | isNotIn
  | lessThan
  | lessThanEqual
  | greaterThan
  | greaterThanEqual
  | between
  | before
  | after
  | like
  | notLike
  | startingWith
  | endingWith
  | containing
  | notContaining
  | matching
deriving DecidableEq, Repr

namespace Operator

/-- The operators in the order of the catalogue. -/
def all : List Operator :=
  [.equals, .differs, .isNull, .isNotNull, .isIn, .isNotIn, .lessThan, .lessThanEqual, .greaterThan,
    .greaterThanEqual, .between, .before, .after, .like, .notLike, .startingWith, .endingWith,
    .containing, .notContaining, .matching]

/-- The name of an operator in the catalogue. -/
def label : Operator → String
  | .equals => "SimpleProperty"
  | .differs => "NegatingSimpleProperty"
  | .isNull => "IsNull"
  | .isNotNull => "IsNotNull"
  | .isIn => "In"
  | .isNotIn => "NotIn"
  | .lessThan => "LessThan"
  | .lessThanEqual => "LessThanEqual"
  | .greaterThan => "GreaterThan"
  | .greaterThanEqual => "GreaterThanEqual"
  | .between => "Between"
  | .before => "Before"
  | .after => "After"
  | .like => "Like"
  | .notLike => "NotLike"
  | .startingWith => "StartingWith"
  | .endingWith => "EndingWith"
  | .containing => "Containing"
  | .notContaining => "NotContaining"
  | .matching => "Regex"

/-- The spellings of an operator, the grouped one first. -/
def spellings : Operator → List Text
  | .equals => ["Is".toList, "Equals".toList]
  | .differs => ["IsNot".toList, "Not".toList]
  | .isNull => ["IsNull".toList, "Null".toList]
  | .isNotNull => ["IsNotNull".toList, "NotNull".toList]
  | .isIn => ["IsIn".toList, "In".toList]
  | .isNotIn => ["IsNotIn".toList, "NotIn".toList]
  | .lessThan => ["IsLessThan".toList, "LessThan".toList]
  | .lessThanEqual => ["IsLessThanEqual".toList, "LessThanEqual".toList]
  | .greaterThan => ["IsGreaterThan".toList, "GreaterThan".toList]
  | .greaterThanEqual => ["IsGreaterThanEqual".toList, "GreaterThanEqual".toList]
  | .between => ["IsBetween".toList, "Between".toList]
  | .before => ["IsBefore".toList, "Before".toList]
  | .after => ["IsAfter".toList, "After".toList]
  | .like => ["IsLike".toList, "Like".toList]
  | .notLike => ["IsNotLike".toList, "NotLike".toList]
  | .startingWith => ["IsStartingWith".toList, "StartingWith".toList, "StartsWith".toList]
  | .endingWith => ["IsEndingWith".toList, "EndingWith".toList, "EndsWith".toList]
  | .containing => ["IsContaining".toList, "Containing".toList, "Contains".toList]
  | .notContaining => ["IsNotContaining".toList, "NotContaining".toList, "NotContains".toList]
  | .matching => ["MatchesRegex".toList, "Matches".toList, "Regex".toList]

/-- The number of arguments an operator takes. -/
def arity : Operator → Nat
  | .isNull | .isNotNull => 0
  | .between => 2
  | _ => 1

/-- Whether an operator makes sense for values of a category. -/
def suits : Operator → Category → Bool
  | .equals, _ | .differs, _ | .isIn, _ | .isNotIn, _ => true
  | .isNull, c | .isNotNull, c => c.isNullable
  | .lessThan, c | .lessThanEqual, c | .greaterThan, c | .greaterThanEqual, c => c.isNumeric
  | .between, c => c.isNumeric || c == .date
  | .before, c | .after, c => c == .date
  | .like, c | .notLike, c | .startingWith, c | .endingWith, c | .containing, c
  | .notContaining, c | .matching, c => c == .string

/-- The operators that suit a category, in the order of the catalogue. -/
def suiting (c : Category) : List Operator := all.filter (·.suits c)

/-- The spellings of the operators that suit a category, in the order of the catalogue. -/
def spellingsSuiting (c : Category) : List Text := (suiting c).flatMap spellings

/-- The group that a keyword belongs to, empty for a keyword of its own. -/
def groupOf (keyword : Text) : Text :=
  if Word.group.isPrefixOf keyword then Word.group else []

/-- The group that one of the spellings of an operator belongs to. -/
def group? (o : Operator) : Option Text :=
  if o.spellings.any Word.group.isPrefixOf then some Word.group else none

/-- Whether a word spells an operator. -/
def isSpelling (word : Text) : Bool := all.any (·.spellings.contains word)

/-- Every operator is in the catalogue. -/
theorem mem_all (o : Operator) : o ∈ all := by cases o <;> decide

end Operator

/-- An operator as it is written: one of its spellings. -/
structure Spelling where
  operator : Operator
  keyword : Text
  keyword_mem : keyword ∈ operator.spellings
deriving DecidableEq, Repr

namespace Spelling

/-- All spellings in the order of the catalogue. -/
def all : List Spelling :=
  Operator.all.flatMap fun o ↦ o.spellings.attach.map fun k ↦ ⟨o, k.1, k.2⟩

/-- The longest spelling at the head of a text, and the text behind it. It need not end where a hump
ends. -/
def read? (t : Text) : Option (Spelling × Text) :=
  Text.longest? (·.keyword.length) (·.keyword.isPrefixOf? t) all

/-- Every spelling is in the list of all. -/
theorem mem_all (s : Spelling) : s ∈ all := by
  simp only [all, List.mem_flatMap, List.mem_map, List.mem_attach, true_and]
  exact ⟨s.operator, Operator.mem_all _, ⟨s.keyword, s.keyword_mem⟩, rfl⟩

/-- No operator is spelled by the empty text. -/
theorem keyword_ne_nil (s : Spelling) : s.keyword ≠ [] := by
  rcases s with ⟨o, k, hk⟩
  rintro rfl
  revert hk
  cases o <;> decide

/-- A spelling and the text behind it make up the text. -/
theorem eq_of_read? {t behind : Text} {s : Spelling} (h : read? t = some (s, behind)) :
    t = s.keyword ++ behind :=
  Text.isPrefixOf?_eq_some_iff.mp (Text.of_longest? h).2

end Spelling

end QueryNames
