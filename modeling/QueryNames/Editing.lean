import QueryNames.Completion

/-!
# Editing a name

How a text changes while a name is typed with the help of completion.
-/

namespace QueryNames

/-- A step of editing. -/
inductive Edit where
  /-- Types more text at the end. -/
  | append (typed : Text)
  /-- Removes characters from the end. -/
  | erase (count : Nat)
  /-- Puts another text in place of the old one. -/
  | replace (text : Text)
  /-- Takes the option with this number, counted round and round. -/
  | pick (index : Nat)
deriving DecidableEq, Repr

namespace Edit

/-- The text after a step. Nothing is picked where there are no options. -/
def apply (g : Grammar) (s : Schema) (t : Text) : Edit → Text
  | .append typed => t ++ typed
  | .erase count => t.take (t.length - count)
  | .replace text => text
  | .pick index =>
    match g.options s t with
    | .ok options => (options[index % options.length]?).getD t
    | .error _ => t

/-- The texts after each of a sequence of steps. -/
def applyAll (g : Grammar) (s : Schema) (t : Text) : List Edit → List Text
  | [] => []
  | e :: rest => e.apply g s t :: applyAll g s (e.apply g s t) rest

end Edit

end QueryNames
