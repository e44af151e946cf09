import QueryNames.Text

/-!
# Dialects

A dialect says with which verbs a name may begin and whether a sort key may leave out its direction.
A grammar is a dialect whose verbs can be told apart and can begin a name.
-/

namespace QueryNames

/-- What becomes of a sort key without a direction. -/
inductive DirectionPolicy where
  /-- The name is not valid. -/
  | reject
  /-- The key sorts ascending. -/
  | ascending
deriving DecidableEq, Repr

namespace DirectionPolicy

/-- All policies. -/
def all : List DirectionPolicy := [.reject, .ascending]

/-- The name of a policy in stored metadata. -/
def label : DirectionPolicy → String
  | .reject => "Reject"
  | .ascending => "Ascending"

end DirectionPolicy

/-- The choices that a grammar leaves open. -/
structure Dialect where
  /-- The words a name may begin with. -/
  verbs : List Text
  missingDirection : DirectionPolicy
deriving DecidableEq, Repr

namespace Dialect

/-- The usual verbs; every sort key needs a direction. -/
def standard : Dialect := ⟨["find".toList, "read".toList, "query".toList], .reject⟩

/-- The usual verbs; sort keys ascend unless they say otherwise. -/
def relaxed : Dialect := { standard with missingDirection := .ascending }

/-- Accepts one more verb. -/
def addVerb (d : Dialect) (verb : Text) : Dialect := { d with verbs := d.verbs ++ [verb] }

/-- A verb consists of ASCII letters and digits and begins with a small letter. -/
def isVerb : Text → Bool
  | [] => false
  | c :: rest => c.isLower && (c :: rest).all Char.isAlphanum

/-- Why no grammar has this dialect. -/
inductive Fault where
  | noVerbs
  | notVerb (word : Text)
  | repeated (verb : Text)
deriving DecidableEq, Repr

/-- The first fault of a list of verbs that stands behind the verbs `seen`. -/
def faultAfter? (seen : List Text) : List Text → Option Fault
  | [] => none
  | v :: rest =>
    if !isVerb v then some (.notVerb v)
    else if v ∈ seen then some (.repeated v)
    else faultAfter? (v :: seen) rest

/-- The first fault of a dialect. -/
def fault? (d : Dialect) : Option Fault :=
  if d.verbs = [] then some .noVerbs else faultAfter? [] d.verbs

private theorem faultAfter?_eq_none_iff (seen vs : List Text) :
    faultAfter? seen vs = none ↔ (∀ v ∈ vs, isVerb v ∧ v ∉ seen) ∧ vs.Nodup := by
  induction vs generalizing seen with
  | nil => simp [faultAfter?]
  | cons v vs ih =>
    simp only [faultAfter?, List.forall_mem_cons, List.nodup_cons]
    split
    · next h =>
      simp only [Bool.not_eq_true'] at h
      simp [h]
    · next h =>
      split
      · next h' => simp [h']
      · next h' =>
        rw [ih]
        simp only [Bool.not_eq_true', Bool.not_eq_false] at h
        simp only [List.mem_cons, not_or]
        constructor
        · rintro ⟨hall, hnd⟩
          exact ⟨⟨⟨h, h'⟩, fun w hw ↦ ⟨(hall w hw).1, (hall w hw).2.2⟩⟩,
            fun hv ↦ (hall v hv).2.1 rfl, hnd⟩
        · rintro ⟨⟨_, hall⟩, hv, hnd⟩
          exact ⟨fun w hw ↦ ⟨(hall w hw).1, fun e ↦ hv (e ▸ hw), (hall w hw).2⟩, hnd⟩

/-- A dialect has no fault exactly when it has verbs, all of them proper and none twice. -/
theorem fault?_eq_none_iff (d : Dialect) :
    d.fault? = none ↔ d.verbs ≠ [] ∧ (∀ v ∈ d.verbs, isVerb v) ∧ d.verbs.Nodup := by
  simp only [fault?]
  split
  · next h => simp [h]
  · next h => simp [faultAfter?_eq_none_iff, h]

end Dialect

/-- A dialect in which names can be read. -/
structure Grammar extends Dialect where
  verbs_ne_nil : verbs ≠ []
  isVerb : ∀ v ∈ verbs, Dialect.isVerb v
  nodup_verbs : verbs.Nodup
deriving DecidableEq, Repr

namespace Grammar

/-- The grammar of a dialect, or the first fault of the dialect. -/
def ofDialect? (d : Dialect) : Except Dialect.Fault Grammar :=
  match h : d.fault? with
  | some fault => .error fault
  | none =>
    have hd := (Dialect.fault?_eq_none_iff d).mp h
    .ok ⟨d, hd.1, hd.2.1, hd.2.2⟩

/-- No verb is the beginning of another, so at most one verb can be read anywhere. -/
def IsPrefixFree (g : Grammar) : Prop := ∀ v ∈ g.verbs, ∀ w ∈ g.verbs, v <+: w → v = w

instance (g : Grammar) : Decidable g.IsPrefixFree := inferInstanceAs (Decidable (∀ _ ∈ _, _))

/-- The grammar of the standard dialect. -/
def standard : Grammar := ⟨.standard, by decide, by decide, by decide⟩

end Grammar

end QueryNames
