import QueryNames.Entity.Schema
import QueryNames.Text.Hump
import QueryNames.Vocabulary

/-!
# Separable schemas

In a separable schema no property can be taken for another or for a word of the grammar where a
name is written as a sequence of words.
-/

namespace QueryNames

namespace Property

/-- The words that a property must not begin with, because they may stand directly before or behind
a property. -/
def reservedHeads : List Text :=
  Word.distinct :: LimitWord.all.map LimitWord.word ++ Direction.all.map Direction.word

/-- A property does not begin with a number or with a reserved word. -/
def HeadIsFree (p : Property) : Prop :=
  ∀ piece ∈ (Text.pieces p.identifier).head?,
    (∀ ds, piece ≠ .hump .digits ds) ∧ piece.text ∉ reservedHeads

/-- The word `By` is no hump of the property. -/
def LacksIntroducer (p : Property) : Prop :=
  Word.introducer ∉ (Text.pieces p.identifier).map Piece.text

/-- The property does not contain a marker that ignores letter case. -/
def LacksMarkers (p : Property) : Prop := ∀ m : CaseMarker, ¬m.word <:+: p.identifier

end Property

namespace Schema

/-- No identifier is the beginning of another. -/
def IsPrefixFree (s : Schema) : Prop :=
  ∀ p ∈ s.properties, ∀ q ∈ s.properties, p.identifier <+: q.identifier → p = q

/-- No property can be taken for another or for a word of the grammar. -/
structure IsSeparable (s : Schema) : Prop where
  isPrefixFree : s.IsPrefixFree
  lacksMarkers : ∀ p ∈ s.properties, p.LacksMarkers
  lacksIntroducer : ∀ p ∈ s.properties, p.LacksIntroducer
  headIsFree : ∀ p ∈ s.properties, p.HeadIsFree

end Schema

end QueryNames
