import QueryNames.Proofs.Declaration

/-!
# What the options add

Every option goes on with the text that has been read, so the options are known from what each adds.
That depends on the edge and on whether the name is valid, and hardly on the text itself.
-/

namespace QueryNames

open Text

namespace Reading

variable {g : Grammar} {s : Schema} {r r' : Reading} {o y : Text}

/-- Options add exactly what completes a word of the place behind its residue. A longer verb and the
valid name itself are options of their own. -/
theorem append_mem_options_iff : r.source ++ y ∈ r.options g s ↔
    r.edge.residue <:+ r.source ∧ (r.edge.residue ++ y ∈ r.edge.place.words g s ∨
      (y ≠ [] ∧ r.source ++ y ∈ g.verbs) ∨ r.isValid = true ∧ y = []) := by
  have hverb : (r.source ++ y ∈ g.verbs ∧ r.source.length < (r.source ++ y).length ∧
      r.source <+: r.source ++ y) ↔ y ≠ [] ∧ r.source ++ y ∈ g.verbs := by
    rw [List.length_append, Nat.lt_add_right_iff_pos, List.length_pos_iff,
      and_iff_left (List.prefix_append r.source y), and_comm]
  have hself : r.source ++ y = r.source ↔ y = [] := List.append_right_eq_self
  rw [mem_options_iff_exists]
  simp only [hverb, hself]
  constructor
  · rintro ⟨stem, heq, ⟨w, hw, -, hy⟩ | h⟩
    · rw [heq, List.append_assoc] at hy
      refine ⟨⟨stem, heq.symm⟩, Or.inl ?_⟩
      rwa [List.append_cancel_left hy]
    · exact ⟨⟨stem, heq.symm⟩, Or.inr h⟩
  · rintro ⟨⟨stem, heq⟩, hw | h⟩
    · refine ⟨stem, heq.symm, Or.inl ⟨_, hw, List.prefix_append _ y, ?_⟩⟩
      rw [← List.append_assoc, heq]
    · exact ⟨stem, heq.symm, Or.inr h⟩

/-- Every option goes on with the text that has been read. -/
theorem prefix_of_mem_options (h : o ∈ r.options g s) : r.source <+: o := by
  obtain ⟨stem, hstem, ⟨w, -, hw, rfl⟩ | ⟨-, -, hverb⟩ | ⟨-, rfl⟩⟩ := mem_options_iff_exists.mp h
  · rw [hstem]
    exact (List.prefix_append_right_inj stem).mpr hw
  · exact hverb
  · exact List.prefix_rfl

/-- What an option adds makes the option of the text. -/
theorem mem_continuations_iff : y ∈ r.continuations g s ↔ r.source ++ y ∈ r.options g s := by
  simp only [continuations, List.mem_filterMap, isPrefixOf?_eq_some_iff, exists_eq_right]

/-- The options are the text with what each of them adds. -/
theorem map_continuations (g : Grammar) (s : Schema) (r : Reading) :
    (r.continuations g s).map (r.source ++ ·) = r.options g s := by
  have key : ∀ os : List Text, (∀ o ∈ os, r.source <+: o) →
      (os.filterMap r.source.isPrefixOf?).map (r.source ++ ·) = os := by
    intro os hos
    induction os with
    | nil => rfl
    | cons o os ih =>
      obtain ⟨⟨z, rfl⟩, hrest⟩ := List.forall_mem_cons.mp hos
      rw [List.filterMap_cons_some (isPrefixOf?_append r.source z), List.map_cons, ih hrest]
  exact key _ fun o ho ↦ prefix_of_mem_options ho

/-- What the options add is in ascending order. -/
theorem pairwise_continuations (g : Grammar) (s : Schema) (r : Reading) :
    (r.continuations g s).Pairwise (· < ·) := by
  have h := pairwise_options g s r
  rw [← map_continuations, List.pairwise_map] at h
  refine h.imp fun {y z} hyz ↦ ?_
  generalize r.source = x at hyz
  induction x with
  | nil => exact hyz
  | cons c x ih =>
    rw [List.cons_append, List.cons_append, List.cons_lt_cons_iff] at hyz
    exact ih (hyz.resolve_left (Char.lt_irrefl c)).2

/-- Readings that end at the same edge with the same defects have options that add the same, if the
residue ends either text and no verb goes on with one of them. -/
theorem continuations_congr (hedge : r.edge = r'.edge) (hdefects : r.defects = r'.defects)
    (hsuffix : r.edge.residue <:+ r.source ↔ r'.edge.residue <:+ r'.source)
    (hverb : ∀ y ≠ [], r.source ++ y ∉ g.verbs) (hverb' : ∀ y ≠ [], r'.source ++ y ∉ g.verbs) :
    r.continuations g s = r'.continuations g s := by
  refine eq_of_pairwise_lt (pairwise_continuations g s r) (pairwise_continuations g s r') fun y ↦ ?_
  have hno : ¬(y ≠ [] ∧ r.source ++ y ∈ g.verbs) := fun h ↦ hverb y h.1 h.2
  have hno' : ¬(y ≠ [] ∧ r'.source ++ y ∈ g.verbs) := fun h ↦ hverb' y h.1 h.2
  rw [mem_continuations_iff, mem_continuations_iff, append_mem_options_iff, append_mem_options_iff,
    hsuffix, isValid, isValid, hedge, hdefects]
  simp only [hno, hno', false_or]

end Reading

end QueryNames
