import QueryNames.Entity.Category
import QueryNames.Text

/-!
# Properties

A property is declared with a small or capital first letter (`primitiveInt`) and stands in a query
name with a capital one (`PrimitiveInt`).
-/

namespace QueryNames

/-- A property of the entity that is queried. -/
structure Property where
  /-- The name as declared. -/
  name : Text
  category : Category
deriving DecidableEq, Repr

namespace Property

/-- The form of the property in a query name: the first letter is a capital. -/
def identifier (p : Property) : Text :=
  match p.name with
  | [] => []
  | c :: rest => c.toUpper :: rest

/-- Reads the property at the head of a text without building its identifier; the result is the text
behind it. A property without a name is never read. -/
def strip? (p : Property) (t : Text) : Option Text :=
  match p.name, t with
  | c :: rest, d :: behind => if c.toUpper = d then rest.isPrefixOf? behind else none
  | _, _ => none

/-- The property as people read it: its name and the name of its category. -/
def display (p : Property) : Text :=
  p.name ++ " (".toList ++ p.category.name.toList ++ ")".toList

/-- A property with a name is read exactly where its identifier stands. -/
theorem strip?_eq_some_iff {p : Property} {t behind : Text} :
    p.strip? t = some behind ↔ p.name ≠ [] ∧ t = p.identifier ++ behind := by
  rcases p with ⟨_ | ⟨c, rest⟩, category⟩
  · simp [strip?]
  · cases t with
    | nil => simp [strip?, identifier]
    | cons d t =>
      simp only [strip?, identifier, ne_eq, reduceCtorEq, not_false_eq_true, true_and,
        List.cons_append, List.cons.injEq]
      split
      · next h => simp only [Text.isPrefixOf?_eq_some_iff, h, true_and]
      · next h => simp [Ne.symm h]

/-- The identifier is as long as the name. -/
@[simp] theorem length_identifier (p : Property) : p.identifier.length = p.name.length := by
  rcases p with ⟨_ | ⟨c, rest⟩, category⟩ <;> rfl

end Property

end QueryNames
