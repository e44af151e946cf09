import QueryNames.Text

/-!
# Decimal numerals

The value of a run of digits, of any length and with leading zeros allowed, and the digits of a
number.
-/

namespace QueryNames.Text

/-- The digits at the head of a text. -/
def digits (t : Text) : Text := t.takeWhile Char.isDigit

/-- The text behind the digits at its head. -/
def behindDigits (t : Text) : Text := t.dropWhile Char.isDigit

/-- The value of a run of decimal digits. -/
def numeralValue (ds : Text) : Nat := Nat.ofDigitChars 10 ds 0

/-- The decimal digits of a number, without leading zeros. -/
def numeral (n : Nat) : Text := Nat.toDigits 10 n

/-- The digits of a number have its value. -/
@[simp] theorem numeralValue_numeral (n : Nat) : numeralValue (numeral n) = n :=
  Nat.ofDigitChars_ten_toDigits

/-- The digits and what stands behind them make up the text. -/
@[simp] theorem digits_append_behindDigits (t : Text) : digits t ++ behindDigits t = t :=
  List.takeWhile_append_dropWhile

end QueryNames.Text
