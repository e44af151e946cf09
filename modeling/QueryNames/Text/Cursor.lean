import QueryNames.Text.Hump
import QueryNames.Text.Longest
import QueryNames.Text.Numeral

/-!
# Cursors

A cursor is a place in a text: what lies behind it and what lies ahead. Keywords end on the
boundaries that the pieces of the whole text give, and a search stops only where a piece starts.
-/

namespace QueryNames

/-- A place in a text. -/
structure Cursor where
  /-- The text before the place, last character first. -/
  behind : Text
  /-- The text from the place on. -/
  ahead : Text
deriving DecidableEq, Repr

namespace Cursor

open Text

/-- The text that the cursor stands in. -/
def text (c : Cursor) : Text := c.behind.reverse ++ c.ahead

/-- The number of bytes before the place. -/
def offset (c : Cursor) : Nat := byteSize c.behind

/-- The place before the first character of a text. -/
def start (t : Text) : Cursor := ⟨[], t⟩

/-- The place behind the last character. -/
def finish (c : Cursor) : Cursor := ⟨c.text.reverse, []⟩

/-- Whether nothing lies ahead. -/
def isAtEnd (c : Cursor) : Bool := c.ahead.isEmpty

/-- Moves over characters until `count` bytes are passed or the text ends. -/
def advance (count : Nat) (c : Cursor) : Cursor := go count c.behind c.ahead
where
  go (count : Nat) (behind : Text) : Text → Cursor
    | [] => ⟨behind, []⟩
    | a :: ahead =>
      if count = 0 then ⟨behind, a :: ahead⟩ else go (count - a.utf8Size) (a :: behind) ahead

/-- The text from one place to a later one. -/
def textTo (c d : Cursor) : Text := c.ahead.take (c.ahead.length - d.ahead.length)

/-- Reads a keyword that ends on a boundary; the result stands behind it. -/
def read? (c : Cursor) (keyword : Text) : Option Cursor :=
  match keyword.isPrefixOf? c.ahead with
  | some ahead =>
    if hasSeamAt c.text (c.offset + byteSize keyword) then
      some ⟨keyword.reverse ++ c.behind, ahead⟩
    else none
  | none => none

/-- Reads the longest keyword of a table. -/
def readLongest? (table : List Text) (c : Cursor) : Option (Text × Cursor) :=
  longest? List.length c.read? table

/-- The places at or after the cursor where a piece of the text starts. -/
def laterStarts (c : Cursor) : List Cursor :=
  ((starts c.text).filter (c.offset ≤ ·)).map fun p ↦ (start c.text).advance p

/-- The first piece at or after the cursor at which a keyword of the table can be read, with the
longest such keyword. -/
def search? (table : List Text) (c : Cursor) : Option (Text × Cursor) :=
  c.laterStarts.findSome? fun place ↦ (place.readLongest? table).map fun m ↦ (m.1, place)

/-- The first piece at or after the cursor at which the keyword can be read. -/
def find? (keyword : Text) (c : Cursor) : Option Cursor :=
  (c.search? [keyword]).map Prod.snd

/-- The number of pieces at or after the cursor at which the keyword can be read. -/
def count (keyword : Text) (c : Cursor) : Nat :=
  c.laterStarts.countP fun place ↦ (place.read? keyword).isSome

/-- Reads the digits ahead, if there are any. -/
def readDigits (c : Cursor) : Text × Cursor :=
  (digits c.ahead, ⟨(digits c.ahead).reverse ++ c.behind, behindDigits c.ahead⟩)

@[simp] theorem text_start (t : Text) : (start t).text = t := by simp [start, text]

@[simp] theorem text_finish (c : Cursor) : c.finish.text = c.text := by simp [finish, text]

private theorem text_advance_go (n : Nat) (behind ahead : Text) :
    (advance.go n behind ahead).text = behind.reverse ++ ahead := by
  induction ahead generalizing n behind with
  | nil => simp [advance.go, text]
  | cons a ahead ih =>
    unfold advance.go
    split
    · rfl
    · simp [ih]

/-- Moving on stays in the same text. -/
@[simp] theorem text_advance (n : Nat) (c : Cursor) : (c.advance n).text = c.text :=
  text_advance_go n c.behind c.ahead

/-- Reading a keyword stays in the same text. -/
theorem text_of_read? {keyword : Text} {c d : Cursor} (h : c.read? keyword = some d) :
    d.text = c.text := by
  simp only [read?] at h
  split at h
  · next ahead hk =>
    split at h
    · obtain rfl := Option.some.inj h
      simp [text, isPrefixOf?_eq_some_iff.mp hk]
    · exact absurd h (by simp)
  · exact absurd h (by simp)

/-- Reading digits stays in the same text. -/
@[simp] theorem text_readDigits (c : Cursor) : c.readDigits.2.text = c.text := by
  simp [readDigits, text]

end Cursor

end QueryNames
