import QueryNames.Completion

/-!
# Texts that completion reaches

The texts that come about by picking options, one after the other, from the empty text on. Where the
option shows that a number is wanted, a number is typed in its place.
-/

namespace QueryNames

/-- One pick: from a text to one of its options, with a number in place of the placeholder. -/
inductive Pick (g : Grammar) (s : Schema) : Text → Text → Prop where
  | word {t o : Text} {options : List Text} :
      g.options s t = .ok options → o ∈ options → ¬Word.numberSlot <:+ o → Pick g s t o
  | number {t stem : Text} {options : List Text} {n : Nat} :
      g.options s t = .ok options → stem ++ Word.numberSlot ∈ options → 0 < n →
        n ≤ Limit.largest → Pick g s t (stem ++ Text.numeral n)

/-- A text that picks lead to from the empty text. -/
inductive Reachable (g : Grammar) (s : Schema) : Text → Prop where
  | empty : Reachable g s []
  | pick {t u : Text} : Reachable g s t → Pick g s t u → Reachable g s u

end QueryNames
