import QueryNames.Checked.Slice
import QueryNames.Completion

/-!
# Checked criteria

The text of a criterion is read by slices: the marker is cut out at the offset where it is found,
and the property and the operator are cut off by their lengths. A fragment may be any text.
Completion cuts words off by their lengths as well.
-/

namespace QueryNames

namespace Text

/-- The byte offset of the first place where a word stands. -/
def offsetOf? (word : Text) : Text → Option Nat
  | [] => if word = [] then some 0 else none
  | c :: t =>
    if word.isPrefixOf (c :: t) then some 0 else (offsetOf? word t).map (c.utf8Size + ·)

end Text

namespace CaseMarker

/-- The marker that stands first in a text, and its byte offset. -/
def first? (t : Text) : Option (CaseMarker × Nat) :=
  (all.filterMap fun m ↦ (Text.offsetOf? m.word t).map (m, ·)).minOn? Prod.snd

/-- Cuts the first marker out of a text by slices, once there is room for what is left of it. -/
def cutChecked (t : Text) : Except Trap (Option CaseMarker × Text) :=
  match first? t with
  | some (m, offset) => do
    if Text.byteSize t < Text.byteSize m.word then throw .negative
    let front ← t.sliceTo offset
    let back ← t.sliceFrom (offset + Text.byteSize m.word)
    return (some m, front ++ back)
  | none => return (none, t)

end CaseMarker

namespace Criterion

/-- Reads the text of a criterion by slices. -/
def ofTextChecked (s : Schema) (t : Text) : Except Trap Criterion := do
  let (marker, words) ← CaseMarker.cutChecked t
  match s.headProperty? words with
  | none => return ⟨none, none, marker, words⟩
  | some (property, _) =>
    let behind ← words.sliceFrom (Text.byteSize property.name)
    match Spelling.read? behind with
    | none => return ⟨some property, none, marker, ← behind.sliceFrom 0⟩
    | some (spelling, _) =>
      return ⟨some property, some spelling, marker,
        ← behind.sliceFrom (Text.byteSize spelling.keyword)⟩

/-- The keywords that may follow the property; those of the group have its word cut off. -/
def nextKeywordsChecked (c : Criterion) : Except Trap (List Text) :=
  match c.property with
  | none => return []
  | some p =>
    let keywords := Operator.spellingsSuiting p.category
    if c.group = [] then
      return keywords.filter (fun k ↦ Operator.groupOf k = []) ++
        [Word.group].filter fun g ↦ keywords.any g.isPrefixOf
    else (keywords.filter c.group.isPrefixOf).mapM fun k ↦ Text.sliceFrom k (Text.byteSize c.group)

/-- The longer operators with the one that is written cut off. -/
def keywordTailsChecked (c : Criterion) : Except Trap (List Text) :=
  match c.property, c.spelling with
  | some p, some s =>
    ((Operator.spellingsSuiting p.category).filter fun k ↦
      Text.byteSize s.keyword < Text.byteSize k && s.keyword.isPrefixOf k).mapM
        fun k ↦ Text.sliceFrom k (Text.byteSize s.keyword)
  | _, _ => return []

end Criterion

namespace Place

/-- What may stand at a place in the grammar, where some words are cut off others. -/
def wordsChecked (g : Grammar) (s : Schema) : Place → Except Trap (List Text)
  | .criterionStart true =>
    return s.identifiers ++ [← Word.orderBy.sliceFrom (Text.byteSize Conjunction.or.word)]
  | .criterion c => do
    let operators ← if c.spelling.isSome then c.keywordTailsChecked else c.nextKeywordsChecked
    return operators ++ (if c.marker.isSome then [] else CaseMarker.all.map CaseMarker.word) ++
      Conjunction.all.map Conjunction.word ++ CaseMarker.all.map CaseMarker.allWord ++
      [Word.orderBy]
  | place => return place.words g s

end Place

/-- The texts that extend what has been read, with the words cut by slices. -/
def Reading.optionsChecked (g : Grammar) (s : Schema) (r : Reading) : Except Trap (List Text) :=
  match r.edge.residue.isSuffixOf? r.source with
  | none => return []
  | some stem => do
    let words := (← r.edge.place.wordsChecked g s).filter r.edge.residue.isPrefixOf
    let verbs := g.verbs.filter fun v ↦ r.source.length < v.length && r.source.isPrefixOf v
    return Text.sortedSet
      (words.map (stem ++ ·) ++ verbs ++ if r.isValid then [r.source] else [])

end QueryNames
