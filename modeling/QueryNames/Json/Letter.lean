import QueryNames.Text

/-!
# Letters of JSON strings

A string of a JSON text is kept as it is written: plain characters and UTF-16 code units given by
their numbers. Code units need not pair up in a string that nobody uses; `toText?` joins the pairs
and refuses what is left over.
-/

namespace QueryNames

/-- One item of a JSON string. -/
inductive JsonLetter where
  | char (c : Char)
  /-- A UTF-16 code unit, below 65536. -/
  | unit (code : Nat)
deriving DecidableEq, Repr

namespace JsonLetter

/-- The value of a hexadecimal digit of either case. -/
def hexValue? (c : Char) : Option Nat :=
  if c.isDigit then some (c.toNat - '0'.toNat)
  else if 'a' ≤ c ∧ c ≤ 'f' then some (c.toNat - 'a'.toNat + 10)
  else if 'A' ≤ c ∧ c ≤ 'F' then some (c.toNat - 'A'.toNat + 10)
  else none

/-- The code unit that four hexadecimal digits give. -/
def unit? (a b c d : Char) : Option Nat := do
  let a ← hexValue? a
  let b ← hexValue? b
  let c ← hexValue? c
  let d ← hexValue? d
  return ((a * 16 + b) * 16 + c) * 16 + d

/-- The character that a letter behind a backslash stands for. -/
def escaped? : Char → Option Char
  | '"' => some '"'
  | '\\' => some '\\'
  | '/' => some '/'
  | 'b' => some '\x08'
  | 'f' => some '\x0c'
  | 'n' => some '\n'
  | 'r' => some '\r'
  | 't' => some '\t'
  | _ => none

/-- Reads the letters of a string up to its closing quote; the result also holds the text behind
it. -/
def readAll? : Text → Option (List JsonLetter × Text)
  | [] => none
  | '"' :: rest => some ([], rest)
  | '\\' :: 'u' :: a :: b :: c :: d :: rest =>
    match unit? a b c d, readAll? rest with
    | some u, some (letters, behind) => some (.unit u :: letters, behind)
    | _, _ => none
  | '\\' :: e :: rest =>
    match escaped? e, readAll? rest with
    | some c, some (letters, behind) => some (.char c :: letters, behind)
    | _, _ => none
  | c :: rest =>
    if c = '\\' ∨ c.toNat < 0x20 then none
    else (readAll? rest).map fun m ↦ (.char c :: m.1, m.2)

/-- The hexadecimal digit of a number below 16. -/
def hexDigit (n : Nat) : Char := Nat.digitChar n

/-- A code unit as it is written. -/
def unitText (code : Nat) : Text :=
  ['\\', 'u', hexDigit (code / 4096 % 16), hexDigit (code / 256 % 16), hexDigit (code / 16 % 16),
    hexDigit (code % 16)]

/-- A letter as it is written. -/
def text : JsonLetter → Text
  | .unit code => unitText code
  | .char '"' => ['\\', '"']
  | .char '\\' => ['\\', '\\']
  | .char '\x08' => ['\\', 'b']
  | .char '\x0c' => ['\\', 'f']
  | .char '\n' => ['\\', 'n']
  | .char '\r' => ['\\', 'r']
  | .char '\t' => ['\\', 't']
  | .char c => if c.toNat < 0x20 then unitText c.toNat else [c]

/-- Whether a code unit is the first half of a pair. -/
def isHighHalf (code : Nat) : Bool := 0xD800 ≤ code && code < 0xDC00

/-- Whether a code unit is the second half of a pair. -/
def isLowHalf (code : Nat) : Bool := 0xDC00 ≤ code && code < 0xE000

/-- The text that letters stand for, unless half a pair stands alone. -/
def toText? : List JsonLetter → Option Text
  | [] => some []
  | .char c :: rest => (toText? rest).map (c :: ·)
  | .unit high :: .unit low :: rest =>
    if isHighHalf high then
      if isLowHalf low then
        (toText? rest).map
          (Char.ofNat (0x10000 + (high - 0xD800) * 0x400 + (low - 0xDC00)) :: ·)
      else none
    else if isLowHalf high then none
    else (toText? (.unit low :: rest)).map (Char.ofNat high :: ·)
  | .unit code :: rest =>
    if isHighHalf code || isLowHalf code then none
    else (toText? rest).map (Char.ofNat code :: ·)

/-- The letters of a text. -/
def ofText (t : Text) : List JsonLetter := t.map .char

/-- The letters of a text stand for it. -/
@[simp] theorem toText?_ofText (t : Text) : toText? (ofText t) = some t := by
  induction t with
  | nil => rfl
  | cons c t ih =>
    show (toText? (ofText t)).map (c :: ·) = some (c :: t)
    rw [ih]
    rfl

end JsonLetter

end QueryNames
