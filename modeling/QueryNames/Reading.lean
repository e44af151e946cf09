import QueryNames.Reading.Closing
import QueryNames.Reading.Predicate
import QueryNames.Reading.Subject

/-!
# Reading query names

Reading follows the sections of a name from left to right, and each section sees only the text that
is left. A text with a stray character, with an empty side of a conjunction in its middle or with
two order clauses is malformed. Every other text gives a query, the defects that keep it from being
valid, and the edge from which it can be completed.
-/

namespace QueryNames

/-- What reading a text gives. -/
structure Reading where
  source : Text
  query : Query
  defects : List Defect
  edge : Edge
deriving DecidableEq, Repr

namespace Reading

/-- Whether the whole text is a proper query name. -/
def isValid (r : Reading) : Bool := r.defects.isEmpty

/-- The canonical form of the name: the limit begins with `Top` and has no leading zeros, and each
marker stands at the end of its criterion. A name that breaks off keeps the words it has. -/
def canonical (r : Reading) : Text :=
  match r.query.verb with
  | none => r.source
  | some verb =>
    if .missingBy ∈ r.defects then verb ++ r.query.subject.text .top
    else r.query.text .top ++ if .emptyOrder ∈ r.defects then Word.orderBy else []

end Reading

namespace Grammar

/-- Reads the sections behind the verb. -/
def readBehind (g : Grammar) (s : Schema) (source verb rest : Text) :
    Except Malformation Reading :=
  let subject := Subject.read s rest
  match subject.next with
  | .stop edge =>
    .ok ⟨source, ⟨some verb, subject.value, [], .absent⟩, subject.defects, edge⟩
  | .resume rest =>
    match Predicate.read s rest with
    | .error fault => .error fault
    | .ok predicate =>
      match predicate.next with
      | .stop edge =>
        .ok ⟨source, ⟨some verb, subject.value, predicate.value, .absent⟩,
          subject.defects ++ predicate.defects, edge⟩
      | .resume rest =>
        let (closing, defects, edge) := Closing.read g.missingDirection s rest
        .ok ⟨source, ⟨some verb, subject.value, predicate.value, closing⟩,
          subject.defects ++ predicate.defects ++ defects, edge⟩

/-- Reads a text as a query name. -/
def read (g : Grammar) (s : Schema) (source : Text) : Except Malformation Reading :=
  match source.find? fun c ↦ !Text.isNameChar c with
  | some c => .error (.strayCharacter c)
  | none =>
    match Keyword.readLongest? id g.verbs source with
    | none => .ok ⟨source, .blank, [.missingVerb], ⟨.verb, source⟩⟩
    | some (verb, rest) => g.readBehind s source verb rest

/-- Whether a text is a valid query name. -/
def accepts (g : Grammar) (s : Schema) (source : Text) : Bool :=
  match g.read s source with
  | .ok r => r.isValid
  | .error _ => false

end Grammar

end QueryNames
