import QueryNames.Text

/-!
# The words of the grammar

A name reads `verb [Distinct] [Top|First [number]] [property] By criteria [AllIgnoreCase]
[OrderBy items]`. Every word of the grammar starts with a capital letter, so it opens a hump of its
own wherever it stands. The verbs are not fixed and belong to a dialect.
-/

namespace QueryNames

namespace Word

/-- Asks for different results only. -/
def distinct : Text := "Distinct".toList

/-- Stands between what is asked for and the criteria. -/
def introducer : Text := "By".toList

/-- Stands between the criteria and the sort keys. -/
def orderBy : Text := "OrderBy".toList

/-- Opens the grouped spellings of most operators. -/
def group : Text := "Is".toList

/-- Completion shows this in place of a number that is still to be typed. -/
def numberSlot : Text := "[Number]".toList

end Word

/-- The two words that open a limit; they mean the same. -/
inductive LimitWord where
  | top
  | first
deriving DecidableEq, Repr

namespace LimitWord

/-- All limit words. -/
def all : List LimitWord := [.top, .first]

/-- The spelling of a limit word. -/
def word : LimitWord → Text
  | .top => "Top".toList
  | .first => "First".toList

end LimitWord

/-- How two criteria are joined. -/
inductive Conjunction where
  | and
  | or
deriving DecidableEq, Repr

namespace Conjunction

/-- All conjunctions. -/
def all : List Conjunction := [.or, .and]

/-- The spelling of a conjunction. -/
def word : Conjunction → Text
  | .and => "And".toList
  | .or => "Or".toList

/-- The conjunction that is spelled like this. -/
def ofWord? (t : Text) : Option Conjunction := all.find? (·.word = t)

/-- Reading a conjunction undoes writing it. -/
@[simp] theorem ofWord?_word (c : Conjunction) : ofWord? c.word = some c := by cases c <;> rfl

end Conjunction

/-- The direction of a sort key. -/
inductive Direction where
  | ascending
  | descending
deriving DecidableEq, Repr

namespace Direction

/-- All directions. -/
def all : List Direction := [.ascending, .descending]

/-- The spelling of a direction. -/
def word : Direction → Text
  | .ascending => "Asc".toList
  | .descending => "Desc".toList

/-- The direction that is spelled like this. -/
def ofWord? (t : Text) : Option Direction := all.find? (·.word = t)

/-- Reading a direction undoes writing it. -/
@[simp] theorem ofWord?_word (d : Direction) : ofWord? d.word = some d := by cases d <;> rfl

/-- No direction is spelled by the empty text. -/
theorem word_ne_nil (d : Direction) : d.word ≠ [] := by cases d <;> decide

end Direction

/-- The two spellings of the marker that lets a criterion ignore letter case. With `All` before it,
the marker speaks for all criteria. -/
inductive CaseMarker where
  | ignoreCase
  | ignoringCase
deriving DecidableEq, Repr

namespace CaseMarker

/-- All markers. -/
def all : List CaseMarker := [.ignoreCase, .ignoringCase]

/-- The spelling of a marker inside a criterion. -/
def word : CaseMarker → Text
  | .ignoreCase => "IgnoreCase".toList
  | .ignoringCase => "IgnoringCase".toList

/-- The spelling of a marker that speaks for all criteria. -/
def allWord (m : CaseMarker) : Text := "All".toList ++ m.word

/-- No marker for all criteria is spelled by the empty text. -/
theorem allWord_ne_nil (m : CaseMarker) : m.allWord ≠ [] := by cases m <;> decide

end CaseMarker

/-- The words that end the text of a criterion. -/
inductive Terminator where
  /-- Another criterion follows. -/
  | join (conjunction : Conjunction)
  /-- The criteria end with a marker for all of them. -/
  | marker (marker : CaseMarker)
  /-- The criteria end with the sort keys. -/
  | order
deriving DecidableEq, Repr

namespace Terminator

/-- All terminators. -/
def all : List Terminator :=
  [.join .and, .join .or, .marker .ignoreCase, .marker .ignoringCase, .order]

/-- The spelling of a terminator. -/
def word : Terminator → Text
  | .join c => c.word
  | .marker m => m.allWord
  | .order => Word.orderBy

/-- Every terminator is in the list of all. -/
theorem mem_all (t : Terminator) : t ∈ all := by
  rcases t with (_ | _) | (_ | _) | _ <;> decide

/-- No terminator is spelled by the empty text. -/
theorem word_ne_nil (t : Terminator) : t.word ≠ [] := by
  rcases t with (_ | _) | (_ | _) | _ <;> decide

end Terminator

end QueryNames
