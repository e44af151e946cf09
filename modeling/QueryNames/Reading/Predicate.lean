import QueryNames.Reading.Edge
import QueryNames.Reading.Malformation
import QueryNames.Text.Keyword

/-!
# Reading the criteria

The section behind `By` is first cut into a chain: texts of criteria with the conjunctions between
them, up to the marker for all criteria, the order clause or the end. A word inside the property at
the head of a criterion never ends it. The chain alone decides whether the section is malformed and
which branches and defects it has.
-/

namespace QueryNames.Predicate

open Text

/-- Splits off the text of the criterion at the head of a text: up to the first word behind its
property that ends it. The result also holds that word and the text behind it. -/
def splitCriterion (s : Schema) (t : Text) : Text × Option (Terminator × Text) :=
  let (head, rest) :=
    match s.headProperty? t with
    | some (p, behind) => (p.identifier, behind)
    | none => ([], t)
  match Keyword.splitAtFirst? Terminator.word Terminator.all rest with
  | some (before, word, behind) => (head ++ before, some (word, behind))
  | none => (head ++ rest, none)

/-- The text of the criterion, the word that ends it and the text behind make up the text. -/
theorem eq_of_splitCriterion {s : Schema} {t before behind : Text} {w : Terminator}
    (h : splitCriterion s t = (before, some (w, behind))) : t = before ++ w.word ++ behind := by
  simp only [splitCriterion] at h
  split at h
  · next before' w' behind' hs =>
    obtain ⟨rfl, rfl, rfl⟩ := by simpa using h
    rw [List.append_assoc, List.append_assoc, ← List.append_assoc before',
      ← Keyword.eq_of_splitAtFirst? hs]
    split
    · next hr => exact (Schema.eq_of_headProperty? hr).2
    · rfl
  · simp at h

/-- A criterion that nothing ends takes the whole text. -/
theorem eq_of_splitCriterion_none {s : Schema} {t before : Text}
    (h : splitCriterion s t = (before, none)) : t = before := by
  simp only [splitCriterion] at h
  split at h
  · simp at h
  · obtain rfl := by simpa using h
    split
    · next hr => exact (Schema.eq_of_headProperty? hr).2
    · rfl

/-- Texts of criteria and the conjunctions between them. -/
structure Chain where
  /-- Each text that a conjunction ends, with the conjunction. -/
  joined : List (Text × Conjunction)
  /-- The text behind the last conjunction. -/
  last : Text
  /-- What follows the criteria; it is empty or begins with the word that ends them. -/
  tail : Text
deriving DecidableEq, Repr

private theorem length_lt_of_splitCriterion {s : Schema} {t before behind : Text} {w : Terminator}
    (h : splitCriterion s t = (before, some (w, behind))) : behind.length < t.length := by
  simp only [splitCriterion] at h
  split at h
  · next before' w' behind' hs =>
    obtain ⟨-, rfl, rfl⟩ := by simpa using h
    refine Nat.lt_of_lt_of_le
      (Keyword.length_lt_of_splitAtFirst? Terminator.word_ne_nil hs) ?_
    split
    · next hr => exact Nat.le_of_lt (Schema.length_lt_of_headProperty? hr)
    · exact Nat.le_refl _
  · simp at h

/-- Cuts the section behind `By` into a chain. -/
def chain (s : Schema) (t : Text) : Chain :=
  match _h : splitCriterion s t with
  | (before, some (.join c, behind)) =>
    let rest := chain s behind
    { rest with joined := (before, c) :: rest.joined }
  | (before, some (.marker m, behind)) => ⟨[], before, m.allWord ++ behind⟩
  | (before, some (.order, behind)) => ⟨[], before, Word.orderBy ++ behind⟩
  | (before, none) => ⟨[], before, []⟩
termination_by t.length
decreasing_by exact length_lt_of_splitCriterion ‹_›

namespace Chain

/-- The conjunction before the last text. -/
def lastConjunction? (p : Chain) : Option Conjunction := p.joined.getLast?.map Prod.snd

/-- The text that the chain was cut from. -/
def text (p : Chain) : Text :=
  p.joined.flatMap (fun m ↦ m.1 ++ m.2.word) ++ p.last ++ p.tail

/-- Nothing is lost by cutting a section into a chain. -/
@[simp] theorem text_chain (s : Schema) (t : Text) : (chain s t).text = t := by
  fun_induction chain s t with
  | case1 t before c behind h rest ih =>
    rw [eq_of_splitCriterion h, ← ih]
    simp [text, rest, Terminator.word]
  | case2 t before m behind h => simp [text, eq_of_splitCriterion h, Terminator.word]
  | case3 t before behind h => simp [text, eq_of_splitCriterion h, Terminator.word]
  | case4 t before h => simp [text, eq_of_splitCriterion_none h]

/-- The first conjunction with no criterion on one side and more text behind it. -/
def emptyBranch? (p : Chain) : Option Conjunction :=
  match p.joined.find? (·.1 = []) with
  | some (_, c) => some c
  | none => if p.last = [] ∧ p.tail ≠ [] then p.lastConjunction? else none

/-- The texts of the criteria. -/
def fragments (p : Chain) : List Text :=
  p.joined.map Prod.fst ++ if p.last = [] then [] else [p.last]

end Chain

/-- Groups criteria into branches: `Or` ends a branch, `And` goes on with it. -/
def branches {α : Type} : List (α × Conjunction) → Option α → List (List α)
  | [], none => []
  | [], some a => [[a]]
  | (a, .or) :: rest, last => [a] :: branches rest last
  | (a, .and) :: rest, last =>
    match branches rest last with
    | [] => [[a]]
    | branch :: others => (a :: branch) :: others

/-- The defect of the criterion that is read from a text, if it is not complete. -/
def defect? (s : Schema) (t : Text) : Option Defect :=
  let c := Criterion.ofText s t
  match c.property with
  | none => some (.unknownProperty t)
  | some p => if c.residue = [] then none else some (.unknownOperator p.name c.residue)

/-- The defect of a chain whose last text is empty. -/
def endDefects (p : Chain) : List Defect :=
  if p.last = [] then
    match p.lastConjunction? with
    | some c => [.danglingConjunction c]
    | none => [.emptyPredicate]
  else []

/-- How reading goes on behind a chain. -/
def next (s : Schema) (p : Chain) : Next :=
  if p.tail ≠ [] then .resume p.tail
  else
    let behindOr := p.lastConjunction? == some .or
    let c := Criterion.ofText s p.last
    if c.property.isSome then .stop ⟨.criterion c, c.residue⟩
    else .stop ⟨.criterionStart behindOr, p.last⟩

/-- The criteria of a chain. -/
def ofChain (s : Schema) (p : Chain) : Predicate :=
  branches (p.joined.map fun m ↦ (Criterion.ofText s m.1, m.2))
    (if p.last = [] then none else some (Criterion.ofText s p.last))

/-- Reads the criteria. -/
def read (s : Schema) (t : Text) : Except Malformation (Passage Predicate) :=
  if 1 < Keyword.count Word.orderBy t then .error .repeatedOrder
  else
    let p := chain s t
    match p.emptyBranch? with
    | some c => .error (.emptyBranch c)
    | none => .ok ⟨ofChain s p, p.fragments.filterMap (defect? s) ++ endDefects p, next s p⟩

end QueryNames.Predicate
