import QueryNames.Query
import QueryNames.Reading.Predicate

/-!
# Chains and branches

A chain lists criteria with a conjunction behind each but the last; grouping turns it into branches.
Every list of nonempty branches comes from a chain, and the written form of the branches is that of
the chain. So what is shown for chains, one criterion after the other, holds for branches too.
-/

namespace QueryNames.Predicate

variable {α : Type}

/-- Criteria with a last one among them give at least one branch. -/
theorem branches_ne_nil (joined : List (α × Conjunction)) (last : α) :
    branches joined (some last) ≠ [] := by
  cases joined with
  | nil => exact List.cons_ne_nil _ _
  | cons m joined =>
    obtain ⟨a, _ | _⟩ := m
    · rw [branches]
      split <;> exact List.cons_ne_nil _ _
    · exact List.cons_ne_nil _ _

/-- Where `And` stands behind a criterion, the criterion opens the branch of the next one. -/
theorem branches_cons_and {joined : List (α × Conjunction)} {last : Option α} {branch : List α}
    {others : List (List α)} (a : α) (h : branches joined last = branch :: others) :
    branches ((a, .and) :: joined) last = (a :: branch) :: others := by
  rw [branches, h]

/-- No branch is empty. -/
theorem ne_nil_of_mem_branches {joined : List (α × Conjunction)} {last : Option α}
    {branch : List α} (h : branch ∈ branches joined last) : branch ≠ [] := by
  induction joined generalizing branch with
  | nil =>
    cases last with
    | none => cases h
    | some a =>
      rw [List.mem_singleton.mp h]
      exact List.cons_ne_nil a []
  | cons m joined ih =>
    obtain ⟨a, _ | _⟩ := m
    · rw [branches] at h
      split at h
      · rw [List.mem_singleton.mp h]
        exact List.cons_ne_nil a []
      · next b others hb =>
        rcases List.mem_cons.mp h with rfl | h
        · exact List.cons_ne_nil a b
        · exact ih (hb ▸ List.mem_cons_of_mem b h)
    · rcases List.mem_cons.mp h with rfl | h
      · exact List.cons_ne_nil a []
      · exact ih h

/-- Grouping neither loses nor adds a criterion. -/
theorem flatten_branches (joined : List (α × Conjunction)) (last : Option α) :
    (branches joined last).flatten = joined.map Prod.fst ++ last.toList := by
  induction joined with
  | nil => cases last <;> rfl
  | cons m joined ih =>
    obtain ⟨a, _ | _⟩ := m
    · rw [branches]
      split
      · next h =>
        rw [h] at ih
        rw [List.map_cons, List.cons_append, ← ih]
        rfl
      · next branch others h =>
        rw [h] at ih
        rw [List.map_cons, List.cons_append, ← ih]
        rfl
    · rw [branches, List.flatten_cons, ih]
      rfl

/-- Every list of nonempty branches comes from a chain. -/
theorem exists_branches_eq {p : List (List α)} (hp : p ≠ []) (hb : ∀ branch ∈ p, branch ≠ []) :
    ∃ joined last, p = branches joined (some last) := by
  induction p with
  | nil => exact absurd rfl hp
  | cons branch others ih =>
    obtain ⟨hne, hothers⟩ := List.forall_mem_cons.mp hb
    clear hb hp
    induction branch with
    | nil => exact absurd rfl hne
    | cons a branch ihb =>
      cases branch with
      | nil =>
        cases others with
        | nil => exact ⟨[], a, rfl⟩
        | cons b rest =>
          obtain ⟨joined, last, h⟩ := ih (List.cons_ne_nil b rest) hothers
          exact ⟨(a, .or) :: joined, last, by rw [h]; rfl⟩
      | cons a' branch =>
        obtain ⟨joined, last, h⟩ := ihb (List.cons_ne_nil a' branch)
        exact ⟨(a, .and) :: joined, last, (branches_cons_and a h.symm).symm⟩

/-- Criteria can be changed one by one before or after grouping. -/
theorem map_branches {β : Type} (f : α → β) (joined : List (α × Conjunction)) (last : Option α) :
    (branches joined last).map (List.map f) =
      branches (joined.map fun m ↦ (f m.1, m.2)) (last.map f) := by
  induction joined with
  | nil => cases last <;> rfl
  | cons m joined ih =>
    obtain ⟨a, k⟩ := m
    cases k with
    | and =>
      rw [List.map_cons, branches, branches, ← ih]
      cases branches joined last <;> rfl
    | or =>
      rw [List.map_cons, branches, branches, ← ih]
      rfl

/-- The words between the texts of a list stand in front of each text but the first. -/
theorem intercalate_cons_eq (w t : Text) (ts : List Text) :
    w.intercalate (t :: ts) = t ++ ts.flatMap (w ++ ·) := by
  induction ts generalizing t with
  | nil => simp
  | cons u ts ih =>
    rw [List.intercalate_cons_cons, ih u, List.flatMap_cons]
    simp only [List.append_assoc]

/-- The texts of a branch with `And` between them. -/
def joinBranch (ts : List Text) : Text := Conjunction.and.word.intercalate ts

/-- The texts of branches with `Or` between the branches. -/
def joinBranches (bs : List (List Text)) : Text :=
  Conjunction.or.word.intercalate (bs.map joinBranch)

/-- The written form of criteria is made of their written forms. -/
theorem text_eq_joinBranches (p : Predicate) :
    p.text = joinBranches (p.map (List.map Criterion.text)) := by
  rw [Predicate.text, joinBranches, List.map_map]
  rfl

/-- Behind the first text of branches stand the rest of its branch and the other branches. -/
theorem joinBranches_cons_cons (t : Text) (branch : List Text) (others : List (List Text)) :
    joinBranches ((t :: branch) :: others) =
      t ++ (branch.flatMap (Conjunction.and.word ++ ·) ++
        others.flatMap fun b ↦ Conjunction.or.word ++ joinBranch b) := by
  rw [joinBranches, List.map_cons, intercalate_cons_eq, joinBranch, intercalate_cons_eq,
    List.append_assoc, List.flatMap_map]

/-- Branches are written like the chain they come from. -/
theorem joinBranches_branches (joined : List (Text × Conjunction)) (last : Text) :
    joinBranches (branches joined (some last)) =
      joined.flatMap (fun m ↦ m.1 ++ m.2.word) ++ last := by
  induction joined with
  | nil =>
    rw [branches, joinBranches_cons_cons]
    simp
  | cons m joined ih =>
    obtain ⟨t, k⟩ := m
    obtain ⟨branch, others, h⟩ := List.exists_cons_of_ne_nil (branches_ne_nil joined last)
    obtain ⟨u, branch, rfl⟩ := List.exists_cons_of_ne_nil
      (ne_nil_of_mem_branches (h ▸ List.mem_cons_self : branch ∈ branches joined (some last)))
    rw [h, joinBranches_cons_cons] at ih
    rw [List.flatMap_cons, List.append_assoc, ← ih]
    cases k with
    | and =>
      rw [branches_cons_and t h, joinBranches_cons_cons, List.flatMap_cons]
      simp only [List.append_assoc]
    | or =>
      rw [branches, h, joinBranches_cons_cons, List.flatMap_cons, joinBranch, intercalate_cons_eq]
      simp only [List.flatMap_nil, List.nil_append, List.append_assoc]

/-- Texts that are as long as before and make up the same branches are the same. -/
theorem eq_of_joinBranches_map_eq {f : Text → Text} {joined : List (Text × Conjunction)}
    {last : Text}
    (hlen : ∀ t ∈ (branches joined (some last)).flatten, (f t).length = t.length)
    (h : joinBranches ((branches joined (some last)).map (List.map f)) =
      joinBranches (branches joined (some last))) :
    ∀ t ∈ (branches joined (some last)).flatten, f t = t := by
  rw [map_branches, Option.map_some, joinBranches_branches, joinBranches_branches] at h
  rw [flatten_branches] at hlen ⊢
  induction joined with
  | nil =>
    intro t ht
    rw [List.mem_singleton.mp ht]
    exact h
  | cons m joined ih =>
    obtain ⟨u, k⟩ := m
    rw [List.map_cons, List.cons_append, List.forall_mem_cons] at hlen ⊢
    rw [List.map_cons, List.flatMap_cons, List.flatMap_cons] at h
    simp only [List.append_assoc] at h
    obtain ⟨hu, hrest⟩ := List.append_inj h hlen.1
    exact ⟨hu, ih hlen.2 (List.append_cancel_left hrest)⟩

/-- Branches whose texts stay the same stay the same. -/
theorem map_map_eq_self {f : α → α} {bs : List (List α)} (h : ∀ t ∈ bs.flatten, f t = t) :
    bs.map (List.map f) = bs := by
  refine (List.map_congr_left fun b hb ↦ ?_).trans (List.map_id bs)
  refine (List.map_congr_left fun t ht ↦ ?_).trans (List.map_id b)
  exact h t (List.mem_flatten_of_mem hb ht)

/-- Each text of a branch with what stands behind it. -/
def placesInBranch (behind : Text) : List Text → List (Text × Text)
  | [] => []
  | t :: rest =>
    (t, rest.flatMap (Conjunction.and.word ++ ·) ++ behind) :: placesInBranch behind rest

/-- Each text of branches with what stands behind it. -/
def places (behind : Text) : List (List Text) → List (Text × Text)
  | [] => []
  | branch :: others =>
    placesInBranch (others.flatMap (fun b ↦ Conjunction.or.word ++ joinBranch b) ++ behind)
      branch ++ places behind others

/-- Behind a text of a chain stand its conjunction and what is written of the rest. -/
theorem places_branches_cons (behind t : Text) (k : Conjunction)
    (joined : List (Text × Conjunction)) (last : Text) :
    places behind (branches ((t, k) :: joined) (some last)) =
      (t, k.word ++ (joinBranches (branches joined (some last)) ++ behind)) ::
        places behind (branches joined (some last)) := by
  obtain ⟨branch, others, h⟩ := List.exists_cons_of_ne_nil (branches_ne_nil joined last)
  obtain ⟨u, branch, rfl⟩ := List.exists_cons_of_ne_nil
    (ne_nil_of_mem_branches (h ▸ List.mem_cons_self : branch ∈ branches joined (some last)))
  cases k with
  | and =>
    rw [branches_cons_and t h, h, joinBranches_cons_cons]
    simp only [places, placesInBranch, List.flatMap_cons, List.append_assoc, List.cons_append]
  | or =>
    rw [branches, h, joinBranches_cons_cons]
    simp only [places, placesInBranch, List.flatMap_cons, List.flatMap_nil, List.nil_append,
      List.append_assoc, List.cons_append, joinBranch, intercalate_cons_eq]

/-- The written form of branches is that of the chain they come from. -/
theorem text_branches (joined : List (Criterion × Conjunction)) (last : Criterion) :
    Predicate.text (branches joined (some last)) =
      joined.flatMap (fun m ↦ m.1.text ++ m.2.word) ++ last.text := by
  rw [text_eq_joinBranches, map_branches, Option.map_some, joinBranches_branches, List.flatMap_map]

end QueryNames.Predicate
