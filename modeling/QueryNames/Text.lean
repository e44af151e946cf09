/-!
# Text

A query name is read one character at a time, so the library works on lists of characters. Positions
and lengths that a caller sees count the bytes of the UTF-8 encoding.
-/

namespace QueryNames

/-- Text as the library reads it. -/
abbrev Text := List Char

namespace Text

/-- Length of the UTF-8 encoding in bytes. -/
def byteSize : Text → Nat
  | [] => 0
  | c :: t => c.utf8Size + byteSize t

/-- The characters of a name are the ASCII letters, the digits and the underscore. -/
def isNameChar (c : Char) : Bool := c.isAlphanum || c == '_'

@[simp] theorem byteSize_nil : byteSize [] = 0 := rfl

@[simp] theorem byteSize_cons (c : Char) (t : Text) :
    byteSize (c :: t) = c.utf8Size + byteSize t := rfl

@[simp] theorem byteSize_append (s t : Text) : byteSize (s ++ t) = byteSize s + byteSize t := by
  induction s with
  | nil => simp
  | cons c s ih => simp [ih, Nat.add_assoc]

/-- Only the empty text has no bytes. -/
theorem byteSize_eq_zero_iff (t : Text) : byteSize t = 0 ↔ t = [] := by
  cases t with
  | nil => simp
  | cons c t =>
    have := Char.utf8Size_pos c
    simp only [byteSize_cons, reduceCtorEq, iff_false]
    omega

/-- What stands behind `p` in `t` completes `p` to `t`. -/
theorem isPrefixOf?_eq_some_iff {p t r : Text} : p.isPrefixOf? t = some r ↔ t = p ++ r := by
  induction p generalizing t with
  | nil =>
    show some t = some r ↔ t = r
    exact Option.some_inj
  | cons c p ih =>
    cases t with
    | nil =>
      show none = some r ↔ [] = c :: p ++ r
      simp
    | cons d t =>
      show (if c == d then p.isPrefixOf? t else none) = some r ↔ d :: t = c :: p ++ r
      by_cases h : c = d
      · simp [h, ih]
      · simp [h, Ne.symm h]

/-- A text that starts with `p` leaves exactly the rest. -/
@[simp] theorem isPrefixOf?_append (p r : Text) : p.isPrefixOf? (p ++ r) = some r :=
  isPrefixOf?_eq_some_iff.mpr rfl

/-- What stands in front of `s` at the end of `t` completes `s` to `t`. -/
theorem isSuffixOf?_eq_some_iff {s t r : Text} : s.isSuffixOf? t = some r ↔ t = r ++ s := by
  show (s.reverse.isPrefixOf? t.reverse).map List.reverse = some r ↔ t = r ++ s
  constructor
  · intro h
    obtain ⟨q, hq, rfl⟩ := Option.map_eq_some_iff.mp h
    have := congrArg List.reverse (isPrefixOf?_eq_some_iff.mp hq)
    simpa using this
  · rintro rfl
    simp

end Text

end QueryNames
