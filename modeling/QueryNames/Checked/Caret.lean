import QueryNames.Checked.Slice
import QueryNames.Entity.Schema
import QueryNames.Text.Hump
import QueryNames.Text.Longest
import QueryNames.Text.Numeral

/-!
# Carets

A caret is a place in a text that is known by its byte offset alone. What lies ahead is sliced from
the whole text again at every step, and a search goes through the offsets where the pieces of the
whole text start. Every place that is taken is checked to lie in the text.
-/

namespace QueryNames

/-- A place in a text, by its byte offset. -/
structure Caret where
  text : Text
  offset : Nat
deriving DecidableEq, Repr

namespace Caret

open Text

variable {α : Type}

/-- Takes a place in a text. -/
def place (t : Text) (offset : Nat) : Except Trap Caret :=
  if offset ≤ byteSize t then .ok ⟨t, offset⟩ else .error .outside

/-- The text that lies ahead. -/
def ahead (c : Caret) : Except Trap Text := c.text.sliceFrom c.offset

/-- Whether nothing lies ahead. -/
def isAtEnd (c : Caret) : Bool := byteSize c.text ≤ c.offset

/-- The text from one place to another, which must not lie before the first. -/
def textTo (c d : Caret) : Except Trap Text := c.text.slice c.offset d.offset

/-- Goes to the end of the text. -/
def finish (c : Caret) : Except Trap Caret := place c.text (byteSize c.text)

/-- Moves on by a number of bytes, at most to the end of the text. -/
def advance (count : Nat) (c : Caret) : Except Trap Caret :=
  place c.text (min (c.offset + count) (byteSize c.text))

/-- Reads a keyword that ends where a piece starts or the text ends; the result stands behind it. -/
def read? (c : Caret) (keyword : Text) : Except Trap (Option Caret) := do
  if keyword.isPrefixOf (← c.ahead) && hasSeamAt c.text (c.offset + byteSize keyword) then
    return some (← c.advance (byteSize keyword))
  else
    return none

/-- Reads the keyword of a table that has most bytes. -/
def readLongest? (word : α → Text) (table : List α) (c : Caret) :
    Except Trap (Option (α × Caret)) := do
  let reads ← table.mapM fun k ↦ do return (k, ← c.read? (word k))
  return (reads.filterMap fun m ↦ m.2.map (m.1, ·)).maxOn? fun m ↦ byteSize (word m.1)

/-- The offsets at or after the caret where a piece of the text starts. -/
def laterStarts (c : Caret) : List Nat := (starts c.text).dropWhile (· < c.offset)

/-- The first of some offsets at which a keyword of a table can be read, with the longest such
keyword. -/
def searchAt? (word : α → Text) (table : List α) (t : Text) :
    List Nat → Except Trap (Option (α × Caret))
  | [] => return none
  | offset :: rest => do
    let there ← place t offset
    match ← there.readLongest? word table with
    | some (k, _) => return some (k, there)
    | none => searchAt? word table t rest

/-- The first place at or after the caret at which a keyword of a table can be read, with the
longest such keyword. -/
def search? (word : α → Text) (table : List α) (c : Caret) : Except Trap (Option (α × Caret)) :=
  searchAt? word table c.text c.laterStarts

/-- The number of places at or after the caret at which a keyword can be read. -/
def count (keyword : Text) (c : Caret) : Except Trap Nat := do
  let reads ← c.laterStarts.mapM fun offset ↦ do (← place c.text offset).read? keyword
  return reads.countP Option.isSome

/-- Reads the digits ahead, which take one byte each. -/
def readDigits (c : Caret) : Except Trap (Text × Caret) := do
  let ahead ← c.ahead
  let size := (digits ahead).length
  return (← ahead.sliceTo size, ← c.advance size)

/-- The longest property ahead, and the place as many bytes on as its name has. -/
def headProperty? (s : Schema) (c : Caret) : Except Trap (Option (Property × Caret)) := do
  match s.headProperty? (← c.ahead) with
  | some (p, _) => return some (p, ← c.advance (byteSize p.name))
  | none => return none

end Caret

end QueryNames
