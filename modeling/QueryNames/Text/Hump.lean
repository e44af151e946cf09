import QueryNames.Text

/-!
# Humps

A name has no blanks; its words are the humps of camel case, such as `find`, `By`, `Text` and `10`.
`pieces` cuts a text into the longest possible humps. `isSeam` tells from the two neighbouring
characters alone whether no hump runs across a place.
-/

namespace QueryNames

namespace Text

variable {c : Char}

/-- A capital letter is no small letter. -/
theorem isLower_eq_false_of_isUpper (h : c.isUpper = true) : c.isLower = false := by
  unfold Char.isUpper at h
  unfold Char.isLower
  grind

/-- A capital letter is no digit. -/
theorem isDigit_eq_false_of_isUpper (h : c.isUpper = true) : c.isDigit = false := by
  unfold Char.isUpper at h
  unfold Char.isDigit
  grind

/-- A digit is no small letter. -/
theorem isLower_eq_false_of_isDigit (h : c.isDigit = true) : c.isLower = false := by
  unfold Char.isDigit at h
  unfold Char.isLower
  grind

end Text

/-- The four kinds of hump. -/
inductive Hump where
  /-- A capital letter and the small letters behind it. -/
  | capitalised
  /-- Small letters. -/
  | small
  /-- Digits. -/
  | digits
  /-- Underscores. -/
  | underscores
deriving DecidableEq, Repr

namespace Hump

/-- The kind of hump that a character opens. -/
def ofHead? (c : Char) : Option Hump :=
  if c.isUpper then some .capitalised
  else if c.isLower then some .small
  else if c.isDigit then some .digits
  else if c == '_' then some .underscores
  else none

/-- Whether a character goes on with a hump that has been opened. -/
def continues : Hump → Char → Bool
  | .capitalised, c => c.isLower
  | .small, c => c.isLower
  | .digits, c => c.isDigit
  | .underscores, c => c == '_'

/-- Every name character opens a hump, and no other character does. -/
theorem isSome_ofHead? (c : Char) : (ofHead? c).isSome = Text.isNameChar c := by
  simp only [ofHead?, Text.isNameChar]
  unfold Char.isAlphanum Char.isAlpha
  split
  · simp [*]
  · split
    · simp [*]
    · split
      · simp [*]
      · split <;> simp_all

end Hump

/-- A piece of a text: a hump, or a character that belongs to none. -/
inductive Piece where
  | hump (kind : Hump) (text : Text)
  | stray (char : Char)
deriving DecidableEq, Repr

/-- A character that no name may hold, and where it stands. -/
structure StrayCharacter where
  char : Char
  offset : Nat
deriving DecidableEq, Repr

namespace Piece

/-- The text of a piece. -/
def text : Piece → Text
  | .hump _ t => t
  | .stray c => [c]

/-- Byte offsets at which the pieces start when the first one starts at `offset`. -/
def startsFrom (offset : Nat) : List Piece → List Nat
  | [] => []
  | s :: rest => offset :: startsFrom (offset + Text.byteSize s.text) rest

/-- The humps with their texts, unless a character belongs to none; the first such is reported. -/
def humpsFrom (offset : Nat) : List Piece → Except StrayCharacter (List (Hump × Text))
  | [] => .ok []
  | .stray c :: _ => .error ⟨c, offset⟩
  | .hump kind t :: rest =>
    (humpsFrom (offset + Text.byteSize t) rest).map ((kind, t) :: ·)

end Piece

namespace Text

/-- The pieces of a text: each hump is as long as it can be. -/
def pieces : Text → List Piece
  | [] => []
  | c :: t =>
    match Hump.ofHead? c with
    | none => .stray c :: pieces t
    | some kind =>
      .hump kind (c :: t.takeWhile kind.continues) :: pieces (t.dropWhile kind.continues)
termination_by t => t.length
decreasing_by
  · simp
  · have := (List.dropWhile_sublist (l := t) kind.continues).length_le
    simp only [List.length_cons]
    omega

/-- The humps of a text in order, or the first character that belongs to none. -/
def humps? (t : Text) : Except StrayCharacter (List (Hump × Text)) :=
  Piece.humpsFrom 0 (pieces t)

/-- Byte offsets at which the pieces of a text start. -/
def starts (t : Text) : List Nat := Piece.startsFrom 0 (pieces t)

/-- Whether a byte offset starts a piece or is the end of the text. -/
def hasSeamAt (t : Text) (offset : Nat) : Bool :=
  offset == byteSize t || (starts t).contains offset

/-- Whether no hump runs from the character `before` a place into the text behind it. -/
def isSeam (before : Option Char) (rest : Text) : Bool :=
  match before, rest with
  | none, _ => true
  | some _, [] => true
  | some b, c :: _ =>
    if c.isLower then !b.isAlpha
    else if c.isDigit then !b.isDigit
    else c != '_' || b != '_'

/-- Nothing is lost by cutting a text into pieces. -/
theorem flatMap_text_pieces (t : Text) : (pieces t).flatMap Piece.text = t := by
  fun_induction pieces t with
  | case1 => rfl
  | case2 c t h ih => simp [Piece.text, ih]
  | case3 c t kind h ih => simp [Piece.text, ih]

/-- The end of a text is a seam. -/
@[simp] theorem isSeam_nil (before : Option Char) : isSeam before [] = true := by
  cases before <;> rfl

/-- A capital letter always opens a hump. -/
theorem isSeam_cons_of_isUpper {before : Option Char} {c : Char} (t : Text) (h : c.isUpper) :
    isSeam before (c :: t) = true := by
  cases before with
  | none => rfl
  | some b =>
    have hl : c.isLower = false := isLower_eq_false_of_isUpper h
    have hd : c.isDigit = false := isDigit_eq_false_of_isUpper h
    have hu : c ≠ '_' := by
      rintro rfl
      cases h
    simp [isSeam, hl, hd, hu]

end Text

end QueryNames
