import QueryNames.Checked.Slice

/-!
# Loops

A checked loop is run for a bounded number of rounds and traps if it has not ended by then. Each
round leaves a note of where it has been.
-/

namespace QueryNames

/-- What a round of a loop leads to. -/
inductive Turn (σ α : Type) where
  | again (state : σ)
  | done (result : α)
deriving Repr

namespace Turn

variable {σ ν α : Type}

/-- Runs a loop for at most the given number of rounds; the result also holds the notes of all
rounds. -/
def loop (round : σ → Except Trap (ν × Turn σ α)) : Nat → σ → Except Trap (List ν × α)
  | 0, _ => throw .endless
  | bound + 1, x => do
    match ← round x with
    | (note, .done result) => return ([note], result)
    | (note, .again y) =>
      let (notes, result) ← loop round bound y
      return (note :: notes, result)

end Turn

end QueryNames
