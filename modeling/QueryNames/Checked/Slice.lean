import QueryNames.Text

/-!
# Slices

Byte offsets say where a text is to be cut, and nothing about an offset keeps it inside the text or
between two characters. A checked reading cuts with the slices here, which trap instead.
-/

namespace QueryNames

/-- What stops a checked reading. -/
inductive Trap where
  /-- A slice begins or ends inside a character, or reaches behind its text. -/
  | slice
  /-- A place is taken behind the end of its text. -/
  | outside
  /-- A length is taken off a smaller one. -/
  | negative
  /-- A loop has not ended after as many rounds as there are places in the text. -/
  | endless
deriving DecidableEq, Repr

namespace Trap

variable {α β : Type}

/-- What has not trapped goes on. -/
@[simp] theorem ok_bind (a : α) (f : α → Except Trap β) : (Except.ok a >>= f) = f a := rfl

/-- A list of steps that do not trap does not trap. -/
theorem mapM_eq_ok {l : List α} {f : α → Except Trap β} {g : α → β}
    (h : ∀ a ∈ l, f a = .ok (g a)) : l.mapM f = .ok (l.map g) := by
  induction l with
  | nil => rfl
  | cons a l ih =>
    obtain ⟨ha, hl⟩ := List.forall_mem_cons.mp h
    rw [List.mapM_cons, ha, ih hl]
    rfl

end Trap

namespace Text

/-- Cuts a text behind a number of bytes, unless that is inside a character or behind the end. -/
def cutAt? : Nat → Text → Option (Text × Text)
  | 0, t => some ([], t)
  | _ + 1, [] => none
  | n + 1, c :: t =>
    if c.utf8Size ≤ n + 1 then (cutAt? (n + 1 - c.utf8Size) t).map fun m ↦ (c :: m.1, m.2) else none

/-- The slice from a byte offset to the end. -/
def sliceFrom (t : Text) (n : Nat) : Except Trap Text :=
  match cutAt? n t with
  | some (_, back) => .ok back
  | none => .error .slice

/-- The slice from the start to a byte offset. -/
def sliceTo (t : Text) (n : Nat) : Except Trap Text :=
  match cutAt? n t with
  | some (front, _) => .ok front
  | none => .error .slice

/-- The slice between two byte offsets, of which the first must not be greater. -/
def slice (t : Text) (m n : Nat) : Except Trap Text := do (← t.sliceTo n).sliceFrom m

/-- A text is cut behind its front. -/
theorem cutAt?_append (front back : Text) :
    cutAt? (byteSize front) (front ++ back) = some (front, back) := by
  induction front with
  | nil => rw [byteSize_nil, List.nil_append, cutAt?]
  | cons c front ih =>
    have hpos := Char.utf8Size_pos c
    obtain ⟨n, hn⟩ := Nat.exists_eq_succ_of_ne_zero (n := byteSize (c :: front)) (by
      rw [byteSize_cons]
      omega)
    rw [hn, List.cons_append, cutAt?]
    rw [byteSize_cons] at hn
    have hrest : n + 1 - c.utf8Size = byteSize front := by omega
    rw [if_pos (by omega), hrest, ih]
    rfl

/-- The two parts of a cut make up the text, and the front has as many bytes as asked for. -/
theorem eq_of_cutAt? {n : Nat} {t front back : Text} (h : cutAt? n t = some (front, back)) :
    t = front ++ back ∧ byteSize front = n := by
  fun_induction cutAt? n t generalizing front with
  | case1 t =>
    obtain ⟨rfl, rfl⟩ := Prod.mk.inj (Option.some.inj h)
    exact ⟨rfl, rfl⟩
  | case2 n => cases h
  | case3 n c t hle ih =>
    obtain ⟨m, hm, heq⟩ := Option.map_eq_some_iff.mp h
    obtain ⟨rfl, rfl⟩ := Prod.mk.inj heq
    obtain ⟨ht, hn⟩ := ih hm
    refine ⟨congrArg (c :: ·) ht, ?_⟩
    rw [byteSize_cons]
    omega
  | case4 n c t hlt => cases h

/-- A text is cut exactly between two characters, where the front has as many bytes as asked for. -/
theorem cutAt?_eq_some_iff {n : Nat} {t front back : Text} :
    cutAt? n t = some (front, back) ↔ t = front ++ back ∧ byteSize front = n := by
  constructor
  · exact eq_of_cutAt?
  · rintro ⟨rfl, rfl⟩
    exact cutAt?_append front back

variable {t front back : Text} {n : Nat}

/-- The slice from an offset is what stands behind a front of that many bytes. -/
theorem sliceFrom_eq_ok_iff :
    sliceFrom t n = .ok back ↔ ∃ front, t = front ++ back ∧ byteSize front = n := by
  simp only [← cutAt?_eq_some_iff, sliceFrom]
  cases cutAt? n t with
  | none => simp
  | some m => simp [Prod.ext_iff]

example : sliceFrom "aé".toList 2 = .error .slice := by rfl

/-- The slice to an offset is a front of that many bytes. -/
theorem sliceTo_eq_ok_iff :
    sliceTo t n = .ok front ↔ ∃ back, t = front ++ back ∧ byteSize front = n := by
  simp only [← cutAt?_eq_some_iff, sliceTo]
  cases cutAt? n t with
  | none => simp
  | some m => simp [Prod.ext_iff]

/-- Behind its front a text has its back. -/
@[simp] theorem sliceFrom_append (front back : Text) :
    sliceFrom (front ++ back) (byteSize front) = .ok back :=
  sliceFrom_eq_ok_iff.mpr ⟨front, rfl, rfl⟩

/-- In front of its back a text has its front. -/
@[simp] theorem sliceTo_append (front back : Text) :
    sliceTo (front ++ back) (byteSize front) = .ok front :=
  sliceTo_eq_ok_iff.mpr ⟨back, rfl, rfl⟩

/-- The middle of a text is cut out. -/
theorem slice_append (front middle back : Text) :
    slice (front ++ (middle ++ back)) (byteSize front) (byteSize front + byteSize middle) =
      .ok middle := by
  have h := sliceTo_append (front ++ middle) back
  rw [byteSize_append, List.append_assoc] at h
  rw [slice, h, Trap.ok_bind, sliceFrom_append]

end Text

end QueryNames
