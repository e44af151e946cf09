import QueryNames.Entity.Schema
import QueryNames.Operator

/-!
# Criteria

A criterion is one comparison of a query name, such as `TextIsNotNull` or `NumberIgnoreCaseIs`: a
property, an operator or none, and a marker that lets it ignore letter case. The marker may stand
anywhere inside the criterion and is cut out before the rest is read.
-/

namespace QueryNames

/-- How letter case counts in a comparison. -/
inductive CaseMode where
  /-- Letters differ when their case does. -/
  | never
  /-- The criterion ignores case. -/
  | perProperty
  /-- All criteria ignore case. -/
  | all
deriving DecidableEq, Repr

namespace CaseMarker

/-- Reads a marker at the head of a text; the result holds the text behind it. -/
def read? (t : Text) : Option (CaseMarker × Text) :=
  Text.longest? (·.word.length) (·.word.isPrefixOf? t) all

/-- Cuts the first marker out of a text, wherever it stands. -/
def cut : Text → Option CaseMarker × Text
  | [] => (none, [])
  | c :: t =>
    match read? (c :: t) with
    | some (m, behind) => (some m, behind)
    | none => ((cut t).1, c :: (cut t).2)

/-- The text around the marker that was cut out makes up the text together with it. -/
theorem eq_of_cut {t rest : Text} {m : CaseMarker} (h : cut t = (some m, rest)) :
    ∃ before behind, t = before ++ m.word ++ behind ∧ rest = before ++ behind := by
  fun_induction cut t generalizing rest with
  | case1 => simp at h
  | case2 c t m' behind hr =>
    obtain ⟨rfl, rfl⟩ := by simpa using h
    exact ⟨[], behind, by simpa using Text.isPrefixOf?_eq_some_iff.mp (Text.of_longest? hr).2, rfl⟩
  | case3 c t hr ih =>
    obtain ⟨hm, rfl⟩ := Prod.mk.inj h
    obtain ⟨before, behind, ht, hrest⟩ := ih (Prod.ext hm rfl)
    exact ⟨c :: before, behind, by simp [ht], by simp [hrest]⟩

/-- Without a marker a text is left as it is. -/
theorem eq_of_cut_none {t rest : Text} (h : cut t = (none, rest)) : rest = t := by
  fun_induction cut t generalizing rest with
  | case1 => simpa using h.symm
  | case2 c t m behind hr => simp at h
  | case3 c t hr ih =>
    obtain ⟨hm, rfl⟩ := Prod.mk.inj h
    have ht : (cut t).2 = t := ih (Prod.ext hm rfl)
    rw [ht]

end CaseMarker

/-- One comparison of a query name. -/
structure Criterion where
  /-- The property at its head, unless none is known. -/
  property : Option Property
  /-- The operator as written; equality may go without saying. -/
  spelling : Option Spelling
  /-- The marker that was cut out. -/
  marker : Option CaseMarker
  /-- The text that could not be read. -/
  residue : Text
deriving DecidableEq, Repr

namespace Criterion

/-- Reads the text of a criterion. -/
def ofText (s : Schema) (t : Text) : Criterion :=
  let (marker, words) := CaseMarker.cut t
  match s.headProperty? words with
  | none => ⟨none, none, marker, words⟩
  | some (property, behind) =>
    match Spelling.read? behind with
    | none => ⟨some property, none, marker, behind⟩
    | some (spelling, residue) => ⟨some property, some spelling, marker, residue⟩

/-- The operator, which is equality if none is written. -/
def operator (c : Criterion) : Operator := (c.spelling.map Spelling.operator).getD .equals

/-- The keyword of the operator as written, empty if there is none. -/
def keyword (c : Criterion) : Text := (c.spelling.map Spelling.keyword).getD []

/-- The group of the keyword as written. -/
def group (c : Criterion) : Text := Operator.groupOf c.keyword

/-- The spelling of the marker, empty if there is none. -/
def markerWord (c : Criterion) : Text := (c.marker.map CaseMarker.word).getD []

/-- How letter case counts as far as the criterion says. -/
def caseMode (c : Criterion) : CaseMode := if c.marker.isSome then .perProperty else .never

/-- The number of arguments the criterion takes. -/
def arity (c : Criterion) : Nat := c.operator.arity

/-- Whether the whole text has been read. -/
def isUnderstood (c : Criterion) : Bool := c.property.isSome && c.residue.isEmpty

/-- The written form, with the marker at the end; empty without a property. -/
def text (c : Criterion) : Text :=
  match c.property with
  | none => []
  | some p => p.identifier ++ c.keyword ++ c.markerWord

/-- Keywords that may follow the property when no operator is complete. Behind the word that opens
the group they are the rest of the grouped ones. -/
def nextKeywords (c : Criterion) : List Text :=
  match c.property with
  | none => []
  | some p =>
    let keywords := Operator.spellingsSuiting p.category
    if c.group = [] then
      keywords.filter (fun k ↦ Operator.groupOf k = []) ++
        [Word.group].filter fun g ↦ keywords.any g.isPrefixOf
    else keywords.filterMap c.group.isPrefixOf?

/-- Texts that turn the operator as written into a longer one. -/
def keywordTails (c : Criterion) : List Text :=
  match c.property, c.spelling with
  | some p, some s =>
    (Operator.spellingsSuiting p.category).filterMap fun k ↦
      (s.keyword.isPrefixOf? k).filter (· ≠ [])
  | _, _ => []

end Criterion

end QueryNames
