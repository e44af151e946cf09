import QueryNames.Checked.Caret
import QueryNames.Checked.Criterion
import QueryNames.Checked.Loop

/-!
# Checked reading

A whole name is read with a caret that moves by the lengths of what it has read. The criteria, the
markers behind them and the sort keys are read in loops, which note the offsets they go through.
Nothing here is given a text that is left: what is read next is sliced from the whole name.
-/

namespace QueryNames

open Text

namespace Caret

/-- How reading goes on behind a section of a name. -/
inductive Next where
  | stop (edge : Edge)
  | resume (caret : Caret)
deriving Repr

/-- What a section of a name gives. -/
structure Passage (α : Type) where
  value : α
  defects : List Defect
  next : Next
deriving Repr

end Caret

/-- The offsets that the loops of a reading have gone through. -/
structure Trace where
  /-- Where the text of each criterion starts and where it ends. -/
  criteria : List (Nat × Nat) := []
  /-- Where a marker for all criteria is looked for behind the first one. -/
  markers : List Nat := []
  /-- Where a sort key is looked for. -/
  order : List Nat := []
deriving Repr

namespace Subject

/-- Reads the word that asks for different results. -/
def readDistinctChecked (c : Caret) : Except Trap (Bool × Caret) := do
  match ← c.read? Word.distinct with
  | some behind => return (true, behind)
  | none => return (false, c)

/-- Reads a limit word and the digits behind it. -/
def readLimitChecked (c : Caret) : Except Trap (Option Text × Caret) := do
  match ← c.readLongest? LimitWord.word LimitWord.all with
  | some (_, behind) =>
    let (ds, rest) ← behind.readDigits
    return (some ds, rest)
  | none => return (none, c)

/-- Reads a property with `By` behind it. -/
def readPropertyChecked? (s : Schema) (c : Caret) : Except Trap (Option (Property × Caret)) := do
  match ← c.headProperty? s with
  | some (p, behind) => return (← behind.read? Word.introducer).map (p, ·)
  | none => return none

/-- Reads what is asked for up to the criteria. -/
def readChecked (s : Schema) (c : Caret) : Except Trap (Caret.Passage Subject) := do
  let (distinct, behindDistinct) ← readDistinctChecked c
  let (number, rest) ← readLimitChecked behindDistinct
  let limit := number.map fun ds ↦ (Limit.ofDigits? ds).getD .implicit
  let defects := limitDefects number
  match ← rest.read? Word.introducer with
  | some behind => return ⟨⟨distinct, limit, none⟩, defects, .resume behind⟩
  | none =>
    match ← readPropertyChecked? s rest with
    | some (p, behind) => return ⟨⟨distinct, limit, some p⟩, defects, .resume behind⟩
    | none =>
      match ← rest.search? id [Word.introducer] with
      | some (_, there) =>
        let before ← rest.textTo there
        let behind ← there.advance (byteSize Word.introducer)
        return ⟨⟨distinct, limit, none⟩, defects ++ [.unknownSubject before], .resume behind⟩
      | none =>
        match ← rest.headProperty? s with
        | some (p, behind) =>
          return ⟨⟨distinct, limit, some p⟩, defects ++ [.missingBy],
            .stop ⟨.introducer, ← behind.ahead⟩⟩
        | none =>
          let hasNumber := number.any (· ≠ [])
          return ⟨⟨distinct, limit, none⟩, defects ++ [.missingBy],
            .stop ⟨.subject distinct limit.isSome hasNumber, ← rest.ahead⟩⟩

end Subject

namespace Predicate

/-- What the loop over the criteria has gathered. -/
structure Gathered where
  caret : Caret
  /-- The branches that `Or` has ended. -/
  closed : Predicate
  /-- The criteria behind the last `Or`. -/
  branch : List Criterion
  /-- The conjunction in front of the caret. -/
  joinedBy : Option Conjunction
  defects : List Defect
deriving Repr

/-- What the loop over the criteria ends with. -/
abbrev Outcome := Except Malformation (Caret.Passage Predicate)

namespace Gathered

/-- Nothing has been gathered in front of the first criterion. -/
def start (c : Caret) : Gathered := ⟨c, [], [], none, []⟩

/-- All branches, of which the last one has not been ended by `Or`. -/
def predicate (x : Gathered) : Predicate :=
  if x.branch = [] then x.closed else x.closed ++ [x.branch]

/-- Adds a criterion with its text. -/
def add (x : Gathered) (t : Text) (c : Criterion) : Gathered :=
  let defect := match c.property with
    | none => [.unknownProperty t]
    | some p => if c.residue = [] then [] else [.unknownOperator p.name c.residue]
  { x with branch := x.branch ++ [c], defects := x.defects ++ defect }

/-- Goes on behind a conjunction. -/
def join (x : Gathered) (k : Conjunction) (behind : Caret) : Gathered :=
  match k with
  | .or => { x with caret := behind, closed := x.predicate, branch := [], joinedBy := some .or }
  | .and => { x with caret := behind, joinedBy := some .and }

/-- Ends with one more defect or none. -/
def finish (x : Gathered) (defects : List Defect) (next : Caret.Next) : Outcome :=
  .ok ⟨x.predicate, x.defects ++ defects, next⟩

/-- What an empty text of a criterion means: no criterion next to a conjunction is refused if
something follows. -/
def finishEmpty (x : Gathered) (word : Option (Terminator × Caret)) : Outcome :=
  match word, x.joinedBy with
  | some (.join k, _), _ => .error (.emptyBranch k)
  | some _, some k => .error (.emptyBranch k)
  | some (_, there), none => x.finish [.emptyPredicate] (.resume there)
  | none, some k =>
    x.finish [.danglingConjunction k] (.stop ⟨.criterionStart (x.joinedBy == some .or), []⟩)
  | none, none =>
    x.finish [.emptyPredicate] (.stop ⟨.criterionStart (x.joinedBy == some .or), []⟩)

/-- What a criterion leads to that has been added last: the word that ends it decides. -/
def turn (x : Gathered) (t : Text) (c : Criterion) :
    Option (Terminator × Caret) → Except Trap (Turn Gathered Outcome)
  | none =>
    let edge := if c.property.isSome then ⟨.criterion c, c.residue⟩
      else ⟨.criterionStart (x.joinedBy == some .or), t⟩
    return .done (x.finish [] (.stop edge))
  | some (.join k, there) => return .again (x.join k (← there.advance (byteSize k.word)))
  | some (_, there) => return .done (x.finish [] (.resume there))

end Gathered

/-- The word that ends the criterion at a caret, with its place, and where the criterion ends. -/
def endChecked (s : Schema) (c : Caret) : Except Trap (Option (Terminator × Caret) × Caret) := do
  let behindHead := match ← c.headProperty? s with
    | some (_, behind) => behind
    | none => c
  match ← behindHead.search? Terminator.word Terminator.all with
  | some (word, there) => return (some (word, there), there)
  | none => return (none, ← c.finish)

/-- One round of the loop over the criteria. It notes where the text of the criterion starts and
ends. -/
def round (s : Schema) (x : Gathered) : Except Trap ((Nat × Nat) × Turn Gathered Outcome) := do
  let (word, there) ← endChecked s x.caret
  let t ← x.caret.textTo there
  let note := (x.caret.offset, there.offset)
  if t = [] then return (note, .done (x.finishEmpty word))
  else
    let c ← Criterion.ofTextChecked s t
    return (note, ← (x.add t c).turn t c word)

/-- Reads the criteria. -/
def readChecked (s : Schema) (c : Caret) : Except Trap (List (Nat × Nat) × Outcome) := do
  if 1 < (← c.count Word.orderBy) then return ([], .error .repeatedOrder)
  else Turn.loop (round s) (byteSize c.text + 1) (.start c)

end Predicate

namespace CaseMarker

/-- One round of the loop over the markers behind the first one, which are defects. -/
def round (x : Caret × List Defect) :
    Except Trap (Nat × Turn (Caret × List Defect) (Caret × List Defect)) := do
  match ← x.1.readLongest? allWord all with
  | some (_, behind) => return (x.1.offset, .again (behind, x.2 ++ [.repeatedAllIgnoreCase]))
  | none => return (x.1.offset, .done x)

/-- Reads the markers for all criteria: the first one, the offsets of the loop over the others, and
the place and the defects behind them. -/
def readAllChecked (c : Caret) :
    Except Trap (Option CaseMarker × List Nat × Caret × List Defect) := do
  match ← c.readLongest? allWord all with
  | some (m, behind) =>
    let (notes, rest, defects) ← Turn.loop round (byteSize c.text + 1) (behind, [])
    return (some m, notes, rest, defects)
  | none => return (none, [], c, [])

end CaseMarker

namespace OrderItem

/-- What the loop over the sort keys has gathered. -/
structure Gathered where
  caret : Caret
  items : List OrderItem
  /-- The place in the grammar behind the items. -/
  place : Place
  defects : List Defect
deriving Repr

/-- What the loop over the sort keys ends with. -/
abbrev Outcome := List OrderItem × List Defect × Edge

/-- One round of the loop over the sort keys. -/
def round (policy : DirectionPolicy) (s : Schema) (x : Gathered) :
    Except Trap (Nat × Turn Gathered Outcome) := do
  let note := x.caret.offset
  if x.caret.isAtEnd then
    let defects := if x.items = [] then [.emptyOrder] else []
    return (note, .done (x.items, x.defects ++ defects, ⟨x.place, []⟩))
  else
    match ← x.caret.headProperty? s with
    | none =>
      let rest ← x.caret.ahead
      return (note, .done (x.items, x.defects ++ [.unknownOrderProperty rest], ⟨x.place, rest⟩))
    | some (p, behind) =>
      match ← behind.readLongest? Direction.word Direction.all with
      | some (d, rest) =>
        return (note, .again ⟨rest, x.items ++ [⟨p, some d⟩], .orderDirection, x.defects⟩)
      | none =>
        let defects := match policy with
          | .reject => [.missingDirection p.name]
          | .ascending => []
        return (note, .again ⟨behind, x.items ++ [⟨p, none⟩], .orderProperty, x.defects ++ defects⟩)

end OrderItem

/-- Reads what stands behind the criteria. The result also holds the offsets of its two loops. -/
def Closing.readChecked (policy : DirectionPolicy) (s : Schema) (c : Caret) :
    Except Trap (Trace × Closing × List Defect × Edge) := do
  let (marker, markers, rest, defects) ← CaseMarker.readAllChecked c
  if marker.isSome && rest.isAtEnd then
    return ({ markers := markers }, ⟨marker, []⟩, defects, ⟨.allIgnoreCase, []⟩)
  else
    match ← rest.read? Word.orderBy with
    | none =>
      let ahead ← rest.ahead
      return ({ markers := markers }, ⟨marker, []⟩, defects ++ [.unexpectedText ahead],
        ⟨.allIgnoreCase, ahead⟩)
    | some behind =>
      let (order, items, found, edge) ←
        Turn.loop (OrderItem.round policy s) (byteSize c.text + 1) ⟨behind, [], .orderStart, []⟩
      return ({ markers := markers, order := order }, ⟨marker, items⟩, defects ++ found, edge)

namespace Grammar

/-- Reads the sections behind the verb. -/
def readBehindChecked (g : Grammar) (s : Schema) (source verb : Text) (c : Caret) :
    Except Trap (Trace × Except Malformation Reading) := do
  let subject ← Subject.readChecked s c
  match subject.next with
  | .stop edge =>
    return ({}, .ok ⟨source, ⟨some verb, subject.value, [], .absent⟩, subject.defects, edge⟩)
  | .resume rest =>
    let (criteria, outcome) ← Predicate.readChecked s rest
    match outcome with
    | .error fault => return ({ criteria := criteria }, .error fault)
    | .ok predicate =>
      match predicate.next with
      | .stop edge =>
        return ({ criteria := criteria },
          .ok ⟨source, ⟨some verb, subject.value, predicate.value, .absent⟩,
            subject.defects ++ predicate.defects, edge⟩)
      | .resume rest =>
        let (trace, closing, defects, edge) ← Closing.readChecked g.missingDirection s rest
        return ({ trace with criteria := criteria },
          .ok ⟨source, ⟨some verb, subject.value, predicate.value, closing⟩,
            subject.defects ++ predicate.defects ++ defects, edge⟩)

/-- Reads a text as a query name. The result also holds the offsets that the loops go through. -/
def readChecked (g : Grammar) (s : Schema) (source : Text) :
    Except Trap (Trace × Except Malformation Reading) :=
  match source.find? fun c ↦ !isNameChar c with
  | some c => return ({}, .error (.strayCharacter c))
  | none => do
    let start ← Caret.place source 0
    match ← start.readLongest? id g.verbs with
    | none => return ({}, .ok ⟨source, .blank, [.missingVerb], ⟨.verb, ← start.ahead⟩⟩)
    | some (verb, behind) => g.readBehindChecked s source verb behind

/-- The options of a text. -/
def optionsChecked (g : Grammar) (s : Schema) (source : Text) :
    Except Trap (Except Malformation (List Text)) := do
  match (← g.readChecked s source).2 with
  | .error fault => return .error fault
  | .ok r => return .ok (← r.optionsChecked g s)

end Grammar

end QueryNames
