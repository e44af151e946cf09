import QueryNames.Reading
import QueryNames.Text.Order

/-!
# Completion

What can be typed next. Each place in the grammar has candidates; those that begin with the residue
of the reading are put in its place. A name that is valid already is an option of its own.
-/

namespace QueryNames

namespace Place

/-- What may stand at a place in the grammar. Behind `Or` the rest of `OrderBy` may stand, because
the two together open the order clause. -/
def words (g : Grammar) (s : Schema) : Place → List Text
  | .verb => g.verbs
  | .subject distinct hasLimit hasNumber =>
    (if distinct || hasLimit then [] else [Word.distinct]) ++
      (if hasLimit then [] else LimitWord.all.map LimitWord.word) ++
      (if hasLimit && !hasNumber then [Word.numberSlot] else []) ++
      [Word.introducer] ++ s.identifiers
  | .introducer => [Word.introducer]
  | .criterionStart behindOr =>
    s.identifiers ++ if behindOr then (Conjunction.or.word.isPrefixOf? Word.orderBy).toList else []
  | .criterion c =>
    (if c.spelling.isSome then c.keywordTails else c.nextKeywords) ++
      (if c.marker.isSome then [] else CaseMarker.all.map CaseMarker.word) ++
      Conjunction.all.map Conjunction.word ++ CaseMarker.all.map CaseMarker.allWord ++
      [Word.orderBy]
  | .allIgnoreCase => [Word.orderBy]
  | .orderStart | .orderDirection => s.identifiers
  | .orderProperty =>
    Direction.all.map Direction.word ++
      match g.missingDirection with
      | .reject => []
      | .ascending => s.identifiers

end Place

namespace Reading

/-- The texts that extend what has been read by one word, in order. There are none when the residue
is not the end of the text. A verb that is still being typed counts although a shorter one has been
read. -/
def options (g : Grammar) (s : Schema) (r : Reading) : List Text :=
  match r.edge.residue.isSuffixOf? r.source with
  | none => []
  | some stem =>
    let words := (r.edge.place.words g s).filter r.edge.residue.isPrefixOf
    let verbs := g.verbs.filter fun v ↦ r.source.length < v.length && r.source.isPrefixOf v
    Text.sortedSet
      (words.map (stem ++ ·) ++ verbs ++ if r.isValid then [r.source] else [])

/-- What each option adds to the text. -/
def continuations (g : Grammar) (s : Schema) (r : Reading) : List Text :=
  (r.options g s).filterMap r.source.isPrefixOf?

end Reading

namespace Grammar

/-- The options of a text. -/
def options (g : Grammar) (s : Schema) (source : Text) : Except Malformation (List Text) :=
  (g.read s source).map (Reading.options g s)

end Grammar

end QueryNames
