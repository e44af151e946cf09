import QueryNames.Proofs.Chain
import QueryNames.Proofs.ClosingSection
import QueryNames.Proofs.Sections
import QueryNames.Proofs.SubjectSection

/-!
# How a valid name was read

A reading without defects went through every section of the name on the straight path: a verb, a
subject that ends with `By`, criteria that are all understood, and behind them nothing or what
belongs there. Nothing is supposed of the schema or the grammar.
-/

namespace QueryNames

open Text

namespace Subject

variable {s : Schema} {t : Text}

/-- How a subject without defects was read. The texts `b` and `rest` stand behind the word for
different results and behind the limit. -/
structure IsRead (s : Schema) (t : Text) (subject : Subject) (behind : Text) (number : Option Text)
    (b rest : Text) : Prop where
  distinct : readDistinct t = (subject.distinct, b)
  digits : readLimit b = (number, rest)
  limit : number.map Limit.ofDigits? = subject.limit.map some
  property :
    (subject.property = none ∧ Keyword.read? Word.introducer rest = some behind) ∨
      ∃ p, subject.property = some p ∧ Keyword.read? Word.introducer rest = none ∧
        readProperty? s rest = some (p, behind)

private theorem map_ofDigits?_of_limitDefects {number : Option Text}
    (h : limitDefects number = []) :
    number.map Limit.ofDigits? =
      (number.map fun ds ↦ (Limit.ofDigits? ds).getD .implicit).map some := by
  cases number with
  | none => rfl
  | some ds =>
    cases hd : Limit.ofDigits? ds with
    | none => simp [limitDefects, hd] at h
    | some l => simp [hd]

/-- A subject without defects is followed by the criteria. -/
theorem exists_isRead (h : (read s t).defects = []) :
    ∃ behind number b rest, (read s t).next = .resume behind ∧
      IsRead s t (read s t).value behind number b rest := by
  cases hd : readDistinct t with
  | mk distinct b =>
  cases hl : readLimit b with
  | mk number rest =>
  simp only [read, hd, hl] at h ⊢
  cases hby : Keyword.read? Word.introducer rest with
  | some behind =>
    simp only [hby] at h ⊢
    exact ⟨behind, number, b, rest, rfl, hd, hl, map_ofDigits?_of_limitDefects h,
      Or.inl ⟨rfl, hby⟩⟩
  | none =>
    simp only [hby] at h ⊢
    cases hp : readProperty? s rest with
    | some m =>
      simp only [hp] at h ⊢
      exact ⟨m.2, number, b, rest, rfl, hd, hl, map_ofDigits?_of_limitDefects h,
        Or.inr ⟨m.1, rfl, hby, hp⟩⟩
    | none =>
      simp only [hp] at h
      split at h
      · simp at h
      · split at h <;> simp at h

end Subject

namespace Predicate

variable {s : Schema} {t : Text}

/-- A criterion has no defect exactly when the whole of its text is understood. -/
theorem defect?_eq_none_iff :
    defect? s t = none ↔
      (Criterion.ofText s t).property.isSome ∧ (Criterion.ofText s t).residue = [] := by
  cases hp : (Criterion.ofText s t).property with
  | none => simp [defect?, hp]
  | some p => simp [defect?, hp]

/-- The empty text is no criterion. -/
theorem defect?_nil_ne_none : defect? s [] ≠ none := by
  intro h
  have hnone : (Criterion.ofText s []).property = none := by
    simp only [Criterion.ofText, CaseMarker.cut, Schema.headProperty?_nil]
  have := (defect?_eq_none_iff.mp h).1
  rw [hnone] at this
  cases this

/-- No text of a chain has a defect. -/
structure Chain.IsUnderstood (s : Schema) (m : Chain) : Prop where
  joined : ∀ x ∈ m.joined, defect? s x.1 = none
  last : defect? s m.last = none

/-- The last text of a chain that is understood is not empty. -/
theorem Chain.IsUnderstood.last_ne_nil {m : Chain} (h : m.IsUnderstood s) : m.last ≠ [] := by
  intro hl
  have := h.last
  rw [hl] at this
  exact defect?_nil_ne_none this

/-- A chain is understood exactly when none of its texts has a defect. -/
theorem Chain.isUnderstood_iff_branchTexts {m : Chain} :
    m.IsUnderstood s ↔ ∀ f ∈ m.branchTexts.flatten, defect? s f = none := by
  rw [branchTexts, flatten_branches, Option.toList_some]
  constructor
  · intro h f hf
    rcases List.mem_append.mp hf with hf | hf
    · obtain ⟨x, hx, rfl⟩ := List.mem_map.mp hf
      exact h.joined x hx
    · rw [List.mem_singleton.mp hf]
      exact h.last
  · intro h
    exact ⟨fun x hx ↦ h _ (List.mem_append_left _ (List.mem_map_of_mem hx)),
      h _ (List.mem_append_right _ (List.mem_singleton_self _))⟩

/-- In a chain that is understood no conjunction stands next to an empty text. -/
theorem Chain.IsUnderstood.emptyBranch?_eq_none {m : Chain} (h : m.IsUnderstood s) :
    m.emptyBranch? = none := by
  have hfind : m.joined.find? (·.1 = []) = none := by
    refine List.find?_eq_none.mpr fun x hx ↦ ?_
    have hd := h.joined x hx
    rw [decide_eq_true_eq]
    intro he
    rw [he] at hd
    exact defect?_nil_ne_none hd
  rw [emptyBranch?, hfind]
  exact if_neg fun hl ↦ h.last_ne_nil hl.1

/-- A chain is understood exactly when reading it gives no defect. -/
theorem Chain.isUnderstood_iff {m : Chain} :
    m.IsUnderstood s ↔ m.fragments.filterMap (defect? s) ++ endDefects m = [] := by
  rw [List.append_eq_nil_iff, List.filterMap_eq_nil_iff, isUnderstood_iff_branchTexts, branchTexts,
    flatten_branches, Option.toList_some, fragments, endDefects]
  by_cases hl : m.last = []
  · simp only [hl, if_true, List.append_nil]
    constructor
    · intro h
      exact absurd (h [] (List.mem_append_right _ (List.mem_singleton_self _))) defect?_nil_ne_none
    · rintro ⟨-, he⟩
      split at he <;> cases he
  · simp only [hl, if_false, and_true]

/-- The criteria have no defects exactly when the chain they are cut into is understood and there is
at most one order clause. -/
theorem read_eq_ok_iff {p : Predicate} {n : Next} :
    read s t = .ok ⟨p, [], n⟩ ↔
      Keyword.count Word.orderBy t ≤ 1 ∧ (chain s t).IsUnderstood s ∧
        ofChain s (chain s t) = p ∧ next s (chain s t) = n := by
  constructor
  · intro h
    simp only [read] at h
    split at h
    · cases h
    · next hcount =>
      split at h
      · cases h
      · have hp := Passage.mk.inj (Except.ok.inj h)
        exact ⟨Nat.le_of_not_lt hcount, Chain.isUnderstood_iff.mpr hp.2.1, hp.1, hp.2.2⟩
  · rintro ⟨hcount, hu, rfl, rfl⟩
    simp only [read, if_neg (Nat.not_lt.mpr hcount), hu.emptyBranch?_eq_none,
      Chain.isUnderstood_iff.mp hu]

end Predicate

namespace OrderItem

variable {s : Schema}

/-- Sort keys have declared properties. -/
theorem property_mem_of_readAll {t rest : Text} {items : List OrderItem}
    (h : readAll s t = (items, rest)) : ∀ i ∈ items, i.property ∈ s.properties := by
  fun_induction readAll s t generalizing items rest with
  | case1 t hr =>
    obtain ⟨rfl, rfl⟩ := Prod.mk.inj h
    exact fun i hi ↦ absurd hi List.not_mem_nil
  | case2 t p behind hr d behind' hd items' rest' hi ih =>
    obtain ⟨rfl, rfl⟩ := Prod.mk.inj h
    intro i hm
    rcases List.mem_cons.mp hm with rfl | hm
    · exact (Schema.eq_of_headProperty? hr).1
    · exact ih hi i hm
  | case3 t p behind hr hd items' rest' hi ih =>
    obtain ⟨rfl, rfl⟩ := Prod.mk.inj h
    intro i hm
    rcases List.mem_cons.mp hm with rfl | hm
    · exact (Schema.eq_of_headProperty? hr).1
    · exact ih hi i hm

/-- A sort key has no defect exactly when it has a direction or needs none. -/
theorem defect?_eq_none_iff {policy : DirectionPolicy} {i : OrderItem} :
    defect? policy i = none ↔ (policy = .reject → i.direction.isSome) := by
  unfold defect?
  cases policy <;> cases i.direction <;> simp

/-- Sort keys end without a defect exactly when there are some and nothing is left. -/
theorem endDefects_eq_nil_iff {items : List OrderItem} {rest : Text} :
    endDefects items rest = [] ↔ rest = [] ∧ items ≠ [] := by
  rw [endDefects]
  by_cases hr : rest = []
  · by_cases hi : items = [] <;> simp [hr, hi]
  · simp [hr]

end OrderItem

namespace CaseMarker

/-- Without a repeated marker there is at most the first one. -/
theorem flatMap_allWord_of_tail_eq_nil {markers : List CaseMarker} (h : markers.tail = []) :
    markers.flatMap allWord = (markers.head?.map allWord).getD [] := by
  cases markers with
  | nil => rfl
  | cons m markers =>
    obtain rfl : markers = [] := h
    exact List.append_nil _

end CaseMarker

namespace Closing

variable {g : Grammar} {s : Schema} {t : Text} {c : Closing} {edge : Edge}

/-- What stands behind the criteria without a defect is exactly what is read there. -/
theorem eq_text_of_read (h : read g.missingDirection s t = (c, [], edge)) :
    t = c.text ∧ ∀ i ∈ c.order, i.IsDeclared g s := by
  cases hm : CaseMarker.readAll t with
  | mk markers rest =>
  have ht := CaseMarker.eq_of_readAll hm
  simp only [read, hm] at h
  split at h
  · next hend =>
    obtain ⟨hc, hd⟩ := Prod.mk.inj h
    obtain ⟨hd, -⟩ := Prod.mk.inj hd
    rw [CaseMarker.flatMap_allWord_of_tail_eq_nil (List.map_eq_nil_iff.mp hd), hend.2] at ht
    rw [← hc]
    exact ⟨ht, fun i hi ↦ absurd hi List.not_mem_nil⟩
  · split at h
    · obtain ⟨-, hd⟩ := Prod.mk.inj h
      obtain ⟨hd, -⟩ := Prod.mk.inj hd
      exact absurd (List.append_eq_nil_iff.mp hd).2 (List.cons_ne_nil _ _)
    · next behind hby =>
      cases hi : OrderItem.readAll s behind with
      | mk items rest' =>
      simp only [hi] at h
      obtain ⟨hc, hd⟩ := Prod.mk.inj h
      obtain ⟨hd, -⟩ := Prod.mk.inj hd
      obtain ⟨hd, hend⟩ := List.append_eq_nil_iff.mp hd
      obtain ⟨hmarkers, hitems⟩ := List.append_eq_nil_iff.mp hd
      obtain ⟨rfl, hne⟩ := OrderItem.endDefects_eq_nil_iff.mp hend
      rw [CaseMarker.flatMap_allWord_of_tail_eq_nil (List.map_eq_nil_iff.mp hmarkers),
        (Keyword.read?_eq_some_iff.mp hby).1, OrderItem.eq_of_readAll hi, List.append_nil] at ht
      rw [← hc]
      refine ⟨?_, fun i hmem ↦ ⟨OrderItem.property_mem_of_readAll hi i hmem, ?_⟩⟩
      · rw [ht, text, if_neg hne, OrderItem.clause]
      · exact OrderItem.defect?_eq_none_iff.mp (List.filterMap_eq_nil_iff.mp hitems i hmem)

end Closing

namespace Grammar

variable {g : Grammar} {s : Schema} {t : Text} {r : Reading}

/-- A text is a valid name exactly when it has a valid reading. -/
theorem accepts_iff : g.accepts s t = true ↔ ∃ r, g.read s t = .ok r ∧ r.isValid = true := by
  unfold accepts
  cases g.read s t with
  | error fault => simp
  | ok r => simp

/-- How a name without defects was read as a query. The text `rest` stands behind the verb, and the
criteria begin with the text `behind`. -/
structure IsReadAs (g : Grammar) (s : Schema) (t : Text) (q : Query) (verb rest behind : Text) :
    Prop where
  readVerb : Keyword.readLongest? id g.verbs t = some (verb, rest)
  verb : q.verb = some verb
  subject : ∃ number b rest', Subject.IsRead s rest q.subject behind number b rest'
  count_orderBy : Keyword.count Word.orderBy behind ≤ 1
  isUnderstood : (Predicate.chain s behind).IsUnderstood s
  predicate : Predicate.ofChain s (Predicate.chain s behind) = q.predicate
  tail : (Predicate.chain s behind).tail = q.closing.text
  order : ∀ i ∈ q.closing.order, i.IsDeclared g s
  readClosing : q.closing.text ≠ [] →
    ∃ edge, Closing.read g.missingDirection s q.closing.text = (q.closing, [], edge)

private theorem readBehind_eq_ok {source verb rest : Text}
    (h : g.readBehind s source verb rest = .ok r) (hv : r.defects = []) :
    ∃ behind p n, r.query.verb = some verb ∧
      (∃ number b rest', Subject.IsRead s rest r.query.subject behind number b rest') ∧
      Predicate.read s behind = .ok ⟨p, [], n⟩ ∧ r.query.predicate = p ∧
      ((∃ edge, n = .stop edge ∧ r.query.closing = .absent) ∨
        ∃ tail edge, n = .resume tail ∧
          Closing.read g.missingDirection s tail = (r.query.closing, [], edge)) := by
  simp only [readBehind] at h
  split at h
  · next hnext =>
    have hr := Except.ok.inj h
    rw [← hr] at hv
    obtain ⟨behind, number, b, rest', hresume, -⟩ := Subject.exists_isRead hv
    rw [hnext] at hresume
    cases hresume
  · next behind hnext =>
    split at h
    · cases h
    · next passage hpassage =>
      obtain ⟨p, defects, n⟩ := passage
      cases n with
      | stop edge =>
        have hr := Except.ok.inj h
        subst hr
        obtain ⟨hsubject, rfl⟩ := List.append_eq_nil_iff.mp hv
        obtain ⟨behind', number, b, rest', hresume, hread⟩ := Subject.exists_isRead hsubject
        obtain rfl : behind = behind' := Next.resume.inj (hnext.symm.trans hresume)
        exact ⟨behind, p, _, rfl, ⟨number, b, rest', hread⟩, hpassage, rfl,
          Or.inl ⟨edge, rfl, rfl⟩⟩
      | resume tail =>
        cases hc : Closing.read g.missingDirection s tail with
        | mk closing result =>
        obtain ⟨closingDefects, edge⟩ := result
        simp only [hc] at h
        have hr := Except.ok.inj h
        subst hr
        obtain ⟨hd, rfl⟩ := List.append_eq_nil_iff.mp hv
        obtain ⟨hsubject, rfl⟩ := List.append_eq_nil_iff.mp hd
        obtain ⟨behind', number, b, rest', hresume, hread⟩ := Subject.exists_isRead hsubject
        obtain rfl : behind = behind' := Next.resume.inj (hnext.symm.trans hresume)
        exact ⟨behind, p, _, rfl, ⟨number, b, rest', hread⟩, hpassage, rfl,
          Or.inr ⟨tail, edge, rfl, hc⟩⟩

/-- Every valid name was read without a defect in any section. -/
theorem exists_isReadAs (h : g.read s t = .ok r) (hv : r.isValid = true) :
    ∃ verb rest behind, g.IsReadAs s t r.query verb rest behind := by
  have hd : r.defects = [] := List.isEmpty_iff.mp hv
  rw [read] at h
  split at h
  · cases h
  · split at h
    · have hr := Except.ok.inj h
      rw [← hr] at hd
      cases hd
    · next verb rest hverb =>
      obtain ⟨behind, p, n, hqverb, hsubject, hp, rfl, hnext⟩ := readBehind_eq_ok h hd
      obtain ⟨hcount, hu, hof, hn⟩ := Predicate.read_eq_ok_iff.mp hp
      refine ⟨verb, rest, behind, ?_⟩
      cases hnext with
      | inl hstop =>
        obtain ⟨edge, rfl, hc⟩ := hstop
        have htext : r.query.closing.text = [] := by rw [hc]; rfl
        refine ⟨hverb, hqverb, hsubject, hcount, hu, hof, ?_, ?_, fun hne ↦ absurd htext hne⟩
        · rw [htext, Predicate.tail_of_next_eq_stop hn]
        · rw [hc]
          exact fun i hi ↦ absurd hi List.not_mem_nil
      | inr hresume =>
        obtain ⟨tail, edge, rfl, hc⟩ := hresume
        obtain ⟨rfl, horder⟩ := Closing.eq_text_of_read hc
        exact ⟨hverb, hqverb, hsubject, hcount, hu, hof, Predicate.tail_of_next_eq_resume hn,
          horder, fun _ ↦ ⟨edge, hc⟩⟩

end Grammar

end QueryNames
