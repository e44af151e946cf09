import QueryNames.Dialect
import QueryNames.Reading.Edge
import QueryNames.Text.Keyword

/-!
# Reading what stands behind the criteria

The section `[AllIgnoreCase] [OrderBy (property [Asc|Desc])+]`. A marker that is written again is a
defect, and so is a sort key without a direction unless the dialect lets it ascend.
-/

namespace QueryNames

namespace OrderItem

/-- Reads sort keys as long as a property follows; the result also holds the text behind them. -/
def readAll (s : Schema) (t : Text) : List OrderItem × Text :=
  match _h : s.headProperty? t with
  | none => ([], t)
  | some (p, behind) =>
    match _h' : Keyword.readLongest? Direction.word Direction.all behind with
    | some (d, rest) =>
      let (items, rest) := readAll s rest
      (⟨p, some d⟩ :: items, rest)
    | none =>
      let (items, rest) := readAll s behind
      (⟨p, none⟩ :: items, rest)
termination_by t.length
decreasing_by
  · exact Nat.lt_trans (Keyword.length_lt_of_readLongest? Direction.word_ne_nil ‹_›)
      (Schema.length_lt_of_headProperty? ‹_›)
  · exact Schema.length_lt_of_headProperty? ‹_›

/-- The sort keys and the text behind them make up the text. -/
theorem eq_of_readAll {s : Schema} {t rest : Text} {items : List OrderItem}
    (h : readAll s t = (items, rest)) : t = items.flatMap text ++ rest := by
  fun_induction readAll s t generalizing items rest with
  | case1 t hr => simp_all
  | case2 t p behind hr d behind' hd items' rest' hi ih =>
    obtain ⟨rfl, rfl⟩ := by simpa using h
    rw [(Schema.eq_of_headProperty? hr).2, Keyword.eq_of_readLongest? hd, ih hi]
    simp [text]
  | case3 t p behind hr hd items' rest' hi ih =>
    obtain ⟨rfl, rfl⟩ := by simpa using h
    rw [(Schema.eq_of_headProperty? hr).2, ih hi]
    simp [text]

/-- The defect of a sort key without a direction where every key needs one. -/
def defect? (policy : DirectionPolicy) (i : OrderItem) : Option Defect :=
  match policy, i.direction with
  | .reject, none => some (.missingDirection i.property.name)
  | _, _ => none

/-- The place in the grammar behind sort keys. -/
def placeAfter (items : List OrderItem) : Place :=
  match items.getLast? with
  | none => .orderStart
  | some i => if i.direction.isSome then .orderDirection else .orderProperty

/-- The defect of what stands behind sort keys. -/
def endDefects (items : List OrderItem) (rest : Text) : List Defect :=
  if rest ≠ [] then [.unknownOrderProperty rest]
  else if items = [] then [.emptyOrder]
  else []

end OrderItem

namespace CaseMarker

/-- Reads the markers for all criteria at the head of a text. -/
def readAll (t : Text) : List CaseMarker × Text :=
  match _h : Keyword.readLongest? allWord all t with
  | none => ([], t)
  | some (m, behind) =>
    let (markers, rest) := readAll behind
    (m :: markers, rest)
termination_by t.length
decreasing_by exact Keyword.length_lt_of_readLongest? allWord_ne_nil ‹_›

/-- The markers and the text behind them make up the text. -/
theorem eq_of_readAll {t rest : Text} {markers : List CaseMarker}
    (h : readAll t = (markers, rest)) : t = markers.flatMap allWord ++ rest := by
  fun_induction readAll t generalizing markers rest with
  | case1 t hr => simp_all
  | case2 t m behind hr markers' rest' hi ih =>
    obtain ⟨rfl, rfl⟩ := by simpa using h
    rw [Keyword.eq_of_readLongest? hr, ih hi]
    simp

end CaseMarker

namespace Closing

/-- Reads what stands behind the criteria. The first marker counts. -/
def read (policy : DirectionPolicy) (s : Schema) (t : Text) :
    Closing × List Defect × Edge :=
  let (markers, rest) := CaseMarker.readAll t
  let marker := markers.head?
  let defects := markers.tail.map fun _ ↦ Defect.repeatedAllIgnoreCase
  if markers ≠ [] ∧ rest = [] then (⟨marker, []⟩, defects, ⟨.allIgnoreCase, []⟩)
  else
    match Keyword.read? Word.orderBy rest with
    | none => (⟨marker, []⟩, defects ++ [.unexpectedText rest], ⟨.allIgnoreCase, rest⟩)
    | some behind =>
      let (items, rest) := OrderItem.readAll s behind
      (⟨marker, items⟩,
        defects ++ items.filterMap (OrderItem.defect? policy) ++ OrderItem.endDefects items rest,
        ⟨OrderItem.placeAfter items, rest⟩)

end Closing

end QueryNames
