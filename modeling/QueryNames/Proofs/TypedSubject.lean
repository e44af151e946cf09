import QueryNames.Proofs.PlainSchema

/-!
# Typing a subject

How reading a subject changes when its text goes on. Where it broke off, the residue grows as long
as it is no complete word; where the criteria were reached, they go on. Either way the words in
front are read as before.
-/

namespace QueryNames.Subject

open Text

variable {s : Schema} {t b q y : Text} {d : Bool} {number : Option Text} {e : Edge}

/-- What stands behind the words in front of a subject. -/
def behindFront (t : Text) : Text := (readLimit (readDistinct t).2).2

/-- How reading goes on behind the words in front of a subject. -/
def nextAt (s : Schema) (d : Bool) (number : Option Text) (q : Text) : Next :=
  match Keyword.read? Word.introducer q with
  | some behind => .resume behind
  | none =>
    match readProperty? s q with
    | some m => .resume m.2
    | none =>
      match Keyword.splitAtFirst? id [Word.introducer] q with
      | some m => .resume m.2.2
      | none =>
        match s.headProperty? q with
        | some m => .stop ⟨.introducer, m.2⟩
        | none => .stop ⟨.subject d number.isSome (number.any (· ≠ [])), q⟩

/-- Reading a subject goes on as it does behind the words in front. -/
theorem next_read (s : Schema) (t : Text) :
    (read s t).next =
      nextAt s (readDistinct t).1 (readLimit (readDistinct t).2).1 (behindFront t) := by
  simp only [read, nextAt, behindFront, Option.isSome_map]
  cases Keyword.read? Word.introducer (readLimit (readDistinct t).2).2 with
  | some behind => rfl
  | none =>
    cases readProperty? s (readLimit (readDistinct t).2).2 with
    | some m => rfl
    | none =>
      cases Keyword.splitAtFirst? id [Word.introducer] (readLimit (readDistinct t).2).2 with
      | some m => rfl
      | none => cases s.headProperty? (readLimit (readDistinct t).2).2 <;> rfl

private theorem next_read_append
    (hd : readDistinct (t ++ y) = ((readDistinct t).1, (readDistinct t).2 ++ y))
    (hl : readLimit ((readDistinct t).2 ++ y) =
      ((readLimit (readDistinct t).2).1, behindFront t ++ y)) :
    (read s (t ++ y)).next =
      nextAt s (readDistinct t).1 (readLimit (readDistinct t).2).1 (behindFront t ++ y) := by
  rw [next_read, behindFront, hd, hl]

/-- What stands behind the words in front ends the text. -/
theorem behindFront_suffix (t : Text) : behindFront t <:+ (readDistinct t).2 ∧
    (readDistinct t).2 <:+ t := by
  constructor
  · rw [behindFront]
    cases hl : readLimit (readDistinct t).2 with
    | mk number rest =>
      cases number with
      | none => rw [eq_of_readLimit_none hl]
      | some ds =>
        obtain ⟨w, hw⟩ := eq_of_readLimit hl
        exact ⟨w.word ++ ds, hw.symm⟩
  · exact ⟨_, (eq_of_readDistinct (Prod.eta (readDistinct t)).symm).symm⟩

/-! ### A subject that breaks off -/

private theorem checked_front :
    behindFront Word.distinct = [] ∧ (∀ w ∈ LimitWord.all, (readLimit w.word).2 = []) ∧
      (∀ u ∈ Word.distinct.inits, u = Word.distinct ∨ behindFront u = u) ∧
      ∀ w ∈ LimitWord.all, ∀ u ∈ w.word.inits, u = w.word ∨ (readLimit u).2 = u := by
  decide +kernel

private theorem next_read_append_of_front
    (hno : ∀ k ∈ Property.rivals, ¬k <+: behindFront t ++ y)
    (hend : behindFront t = [] → Opens y ∧ ∀ c ∈ y.head?, c.isDigit = false) :
    (read s (t ++ y)).next =
      nextAt s (readDistinct t).1 (readLimit (readDistinct t).2).1 (behindFront t ++ y) := by
  obtain ⟨hdistinct, hlimit, hinits, hinits'⟩ := checked_front
  refine next_read_append (readDistinct_append_right ?_ ?_) (readLimit_append_right ?_ ?_ ?_)
  · rintro rfl
    exact (hend hdistinct).1
  · intro hpre ht
    refine (hinits t (List.mem_inits _ _ |>.mpr ht)).resolve_right fun hself ↦ ?_
    rw [← hself] at hpre
    exact hno _ (by decide) hpre
  · intro w hw
    refine (hend ?_).1
    rw [behindFront, hw]
    exact hlimit w (LimitWord.mem_all w)
  · intro w hpre ht
    refine (hinits' w (LimitWord.mem_all w) _ (List.mem_inits _ _ |>.mpr ht)).resolve_right
      fun hself ↦ ?_
    rw [← hself] at hpre
    exact hno w.word (by cases w <;> decide) hpre
  · intro _ hnil
    exact (hend hnil).2

/-- Where `By` stands nowhere, a subject breaks off. -/
theorem nextAt_of_lacks (h : ¬Word.introducer <:+: q) :
    nextAt s d number q =
      match s.headProperty? q with
      | some m => .stop ⟨.introducer, m.2⟩
      | none => .stop ⟨.subject d number.isSome (number.any (· ≠ [])), q⟩ := by
  have hproperty : readProperty? s q = none := by
    cases hh : s.headProperty? q with
    | none => simp only [readProperty?, hh, Option.bind_none]
    | some m =>
      have hu : m.2 <:+ q := ⟨m.1.identifier, (Schema.eq_of_headProperty? hh).2.symm⟩
      simp only [readProperty?, hh, Option.bind_some, Keyword.read?_eq_none_of_lacks h hu,
        Option.map_none]
  have hsplit : Keyword.splitAtFirst? id [Word.introducer] q = none :=
    Keyword.splitAtFirst?_eq_none_of_lacks fun k hk ↦ List.mem_singleton.mp hk ▸ h
  simp only [nextAt, Keyword.read?_eq_none_of_lacks h List.suffix_rfl, hproperty, hsplit]

/-- Where a subject breaks off, it does so at its property or at what stands in its place, and `By`
stands behind neither. -/
theorem stop_cases (h : nextAt s d number q = .stop e) :
    Keyword.read? Word.introducer q = none ∧ readProperty? s q = none ∧
      ((∃ p behind, s.headProperty? q = some (p, behind) ∧ e = ⟨.introducer, behind⟩) ∨
        s.headProperty? q = none ∧
          e = ⟨.subject d number.isSome (number.any (· ≠ [])), q⟩) := by
  simp only [nextAt] at h
  split at h
  · cases h
  · next hby =>
    split at h
    · cases h
    · next hproperty =>
      refine ⟨hby, hproperty, ?_⟩
      split at h
      · cases h
      · split at h
        · next m hm => exact Or.inl ⟨m.1, m.2, hm, (Next.stop.inj h).symm⟩
        · next hnone => exact Or.inr ⟨hnone, (Next.stop.inj h).symm⟩

/-- A subject breaks off behind its property or in front of that. -/
theorem place_of_stop (h : (read s t).next = .stop e) :
    e.place = .introducer ∨ ∃ d hasLimit hasNumber, e.place = .subject d hasLimit hasNumber := by
  rw [next_read] at h
  obtain ⟨-, -, ⟨p, behind, -, rfl⟩ | ⟨-, rfl⟩⟩ := stop_cases h
  · exact Or.inl rfl
  · exact Or.inr ⟨_, _, _, rfl⟩

/-- The residue of a subject that breaks off ends what stands behind the words in front. -/
theorem residue_suffix_behindFront (h : (read s t).next = .stop e) :
    e.residue <:+ behindFront t := by
  rw [next_read] at h
  obtain ⟨-, -, ⟨p, behind, hp, rfl⟩ | ⟨-, rfl⟩⟩ := stop_cases h
  · exact ⟨p.identifier, (Schema.eq_of_headProperty? hp).2.symm⟩
  · exact List.suffix_rfl

/-- The residue of a subject that breaks off ends the text. -/
theorem residue_suffix (h : (read s t).next = .stop e) : e.residue <:+ t := by
  obtain ⟨hrest, hfront⟩ := behindFront_suffix t
  exact (residue_suffix_behindFront h).trans (hrest.trans hfront)

/-- A subject in which `By` stands nowhere breaks off. -/
theorem exists_next_eq_stop (s : Schema) (h : ¬Word.introducer <:+: t) :
    ∃ e, (read s t).next = .stop e := by
  obtain ⟨hrest, hfront⟩ := behindFront_suffix t
  rw [next_read, nextAt_of_lacks fun hby ↦ h (hby.trans (hrest.trans hfront).isInfix)]
  split
  · exact ⟨_, rfl⟩
  · exact ⟨_, rfl⟩

/-- Where a subject breaks off, its residue grows as long as it is no complete word. -/
theorem next_append_of_stop (hs : s.IsPlain) (h : (read s t).next = .stop e)
    (hx : s.IsUnfinished (e.residue ++ y)) :
    (read s (t ++ y)).next = .stop ⟨e.place, e.residue ++ y⟩ := by
  rw [next_read] at h
  obtain ⟨-, -, ⟨p, behind, hp, rfl⟩ | ⟨-, rfl⟩⟩ := stop_cases h
  · obtain ⟨hmem, hq⟩ := Schema.eq_of_headProperty? hp
    have htext : behindFront t ++ y = p.identifier ++ (behind ++ y) := by
      rw [hq, List.append_assoc]
    have hno : ∀ k ∈ Property.rivals, ¬k <+: behindFront t ++ y := by
      intro k hk
      rw [htext]
      exact (hs.property p hmem).not_prefix_append hk _
    have hne : behindFront t ≠ [] := by
      rw [hq]
      exact List.append_ne_nil_of_left_ne_nil (s.named p hmem).identifier_ne_nil _
    have hlacks : ¬Word.introducer <:+: behindFront t ++ y := by
      rw [htext]
      intro hby
      rcases (Word.bars_introducer hx.opens).isInfix_append hby with hin | hin
      · exact (hs.property p hmem).lacksIntroducer hin
      · exact hx.lacksIntroducer hs hin
    rw [next_read_append_of_front hno fun hnil ↦ absurd hnil hne, nextAt_of_lacks hlacks, htext,
      hs.isPrefixFree.headProperty?_append hmem]
  · rw [next_read_append_of_front (fun k hk ↦ hx.not_prefix hs hk), nextAt_of_lacks
      (hx.lacksIntroducer hs)]
    · have hnone : s.headProperty? (behindFront t ++ y) = none := hx.headProperty?_eq_none hs
      rw [hnone]
    · intro hnil
      have hy : s.IsUnfinished y := by
        rw [← List.nil_append y, ← hnil]
        exact hx
      exact ⟨hy.opens, hy.isDigit_head hs⟩

/-! ### A subject that criteria follow -/

private theorem read?_introducer_append_right (h : 2 < t.length) (y : Text) :
    Keyword.read? Word.introducer (t ++ y) = (Keyword.read? Word.introducer t).map (· ++ y) := by
  have hno : ¬t <+: Word.introducer := by
    intro hpre
    have hle : t.length ≤ 2 := hpre.length_le
    omega
  exact Keyword.read?_append_right (by decide) (fun he ↦ absurd (he ▸ List.prefix_rfl) hno)
    fun _ hpre ↦ absurd hpre hno

private theorem resume_cases (h : nextAt s d number q = .resume b) :
    Keyword.read? Word.introducer q = some b ∨
      Keyword.read? Word.introducer q = none ∧
        ((∃ p, readProperty? s q = some (p, b)) ∨
          readProperty? s q = none ∧
            ∃ before, Keyword.splitAtFirst? id [Word.introducer] q =
              some (before, Word.introducer, b)) := by
  simp only [nextAt] at h
  split at h
  · next hr => exact Or.inl (Next.resume.inj h ▸ hr)
  · next hr =>
    refine Or.inr ⟨hr, ?_⟩
    split at h
    · next m hm => exact Or.inl ⟨m.1, Next.resume.inj h ▸ hm⟩
    · next hnone =>
      refine Or.inr ⟨hnone, ?_⟩
      split at h
      · next m hm =>
        obtain ⟨before, w, behind⟩ := m
        obtain rfl : w = Word.introducer := List.mem_singleton.mp
          (of_longest? (Keyword.readLongest?_of_splitAtFirst? hm)).1
        exact ⟨before, Next.resume.inj h ▸ hm⟩
      · split at h <;> cases h

private theorem exists_eq_of_resume (h : nextAt s d number q = .resume b) :
    ∃ u, q = u ++ (Word.introducer ++ b) := by
  rcases resume_cases h with hr | ⟨-, ⟨p, hp⟩ | ⟨-, before, hb⟩⟩
  · exact ⟨[], (Keyword.read?_eq_some_iff.mp hr).1⟩
  · exact ⟨p.identifier, by rw [(eq_of_readProperty? hp).2, List.append_assoc]⟩
  · exact ⟨before, by rw [Keyword.eq_of_splitAtFirst? hb, List.append_assoc, id]⟩

/-- The criteria that follow a subject open. -/
theorem opens_of_resume (h : (read s t).next = .resume b) : Opens b := by
  have hread : ∀ u, Keyword.read? Word.introducer u = some b → Opens b :=
    fun u hu ↦ ((Keyword.read?_eq_some_iff_opens (by decide)).mp hu).2
  rw [next_read] at h
  rcases resume_cases h with hr | ⟨-, ⟨p, hp⟩ | ⟨-, before, hb⟩⟩
  · exact hread _ hr
  · simp only [readProperty?, Option.bind_eq_some_iff, Option.map_eq_some_iff, Prod.mk.injEq] at hp
    obtain ⟨m, -, b', hb', -, rfl⟩ := hp
    exact hread _ hb'
  · exact hread _ (of_longest? (Keyword.readLongest?_of_splitAtFirst? hb)).2

/-- The criteria that follow a subject end what stands behind the words in front. -/
theorem suffix_behindFront_of_resume (h : (read s t).next = .resume b) : b <:+ behindFront t := by
  rw [next_read] at h
  obtain ⟨u, hu⟩ := exists_eq_of_resume h
  exact ⟨u ++ Word.introducer, by rw [hu, List.append_assoc]⟩

/-- The criteria that follow a subject end the text. -/
theorem suffix_of_resume (h : (read s t).next = .resume b) : b <:+ t := by
  obtain ⟨hrest, hfront⟩ := behindFront_suffix t
  exact (suffix_behindFront_of_resume h).trans (hrest.trans hfront)

/-- A search for `By` that ends in a text ends there too when the text goes on. -/
theorem splitAtFirst?_append_right {before : Text}
    (h : Keyword.splitAtFirst? id [Word.introducer] q = some (before, Word.introducer, b))
    (hy : Opens (b ++ y)) :
    Keyword.splitAtFirst? id [Word.introducer] (q ++ y) =
      some (before, Word.introducer, b ++ y) := by
  have hq : q ++ y = before ++ (Word.introducer ++ (b ++ y)) := by
    rw [Keyword.eq_of_splitAtFirst? h, id]
    simp only [List.append_assoc]
  have hpass : ∀ a c, before = a ++ c → c ≠ [] →
      Keyword.readLongest? id [Word.introducer] (c ++ (Word.introducer ++ (b ++ y))) = none := by
    intro a c hac hc
    have hnone := Keyword.readLongest?_eq_none_of_splitAtFirst? h hac hc
    have hlong : 2 < (c ++ (Word.introducer ++ b)).length := by
      have := List.length_pos_iff.mpr hc
      rw [List.length_append, List.length_append, show Word.introducer.length = 2 from rfl]
      omega
    rw [Keyword.readLongest?_singleton, Option.map_eq_none_iff] at hnone ⊢
    rw [← List.append_assoc Word.introducer, ← List.append_assoc,
      read?_introducer_append_right hlong, Option.map_eq_none_iff]
    exact hnone
  have hread : Keyword.readLongest? id [Word.introducer] (Word.introducer ++ (b ++ y)) =
      some (Word.introducer, b ++ y) := by
    rw [Keyword.readLongest?_singleton, Word.read?_introducer_append hy, Option.map_some]
  rw [hq, Keyword.splitAtFirst?_append hpass,
    Keyword.splitAtFirst?_of_readLongest? (by simp [Word.introducer]) hread]
  simp only [Option.map_some, List.append_nil]

private theorem readProperty?_append_right (hs : s.IsPlain) (hin : Word.introducer <:+: q)
    (h : readProperty? s q = none) (y : Text) : readProperty? s (q ++ y) = none := by
  have hfits : s.Fits q y := by
    intro p hp hpre
    rcases prefix_append_cases hpre with hq | ⟨z, -, hz, -⟩
    · exact hq.length_le
    · refine absurd ?_ (hs.property p hp).lacksIntroducer
      rw [hz]
      exact hin.trans (List.prefix_append q z).isInfix
  cases hh : s.headProperty? q with
  | none => simp only [readProperty?, hfits.headProperty?_append_right, hh, Option.map_none,
      Option.bind_none]
  | some m =>
    obtain ⟨p, behind⟩ := m
    obtain ⟨hmem, rfl⟩ := Schema.eq_of_headProperty? hh
    have hnone : Keyword.read? Word.introducer behind = none := by
      simpa only [readProperty?, hh, Option.bind_some, Option.map_eq_none_iff] using h
    have hread : Keyword.read? Word.introducer (behind ++ y) = none := by
      rw [Keyword.read?_append_right (by decide), hnone, Option.map_none]
      · rintro rfl
        cases hnone
      · intro _ hpre
        -- the word stands behind the property, since it is no part of the property
        have hopen : Opens behind := by
          have := Word.opens_introducer_append []
          rw [List.append_nil] at this
          exact this.of_isPrefix hpre
        have hbehind := ((Word.bars_introducer hopen).isInfix_append hin).resolve_left
          (hs.property p hmem).lacksIntroducer
        exact hpre.eq_of_length_le hbehind.length_le
    simp only [readProperty?, hfits.headProperty?_append_right, hh, Option.map_some,
      Option.bind_some, hread, Option.map_none]

private theorem nextAt_append_of_resume (hs : s.IsPlain) (h : nextAt s d number q = .resume b)
    (hy : Opens (b ++ y)) : nextAt s d number (q ++ y) = .resume (b ++ y) := by
  obtain ⟨u, hq⟩ := exists_eq_of_resume h
  rcases resume_cases h with hr | ⟨hr, hrest⟩
  · have hread : Keyword.read? Word.introducer (q ++ y) = some (b ++ y) := by
      rw [(Keyword.read?_eq_some_iff.mp hr).1, List.append_assoc, Word.read?_introducer_append hy]
    simp only [nextAt, hread]
  have hlong : 2 < q.length := by
    have hu : u ≠ [] := by
      rintro rfl
      rw [hq, List.nil_append, Word.read?_introducer_append (hy.of_isPrefix (List.prefix_append b y))]
        at hr
      cases hr
    have := List.length_pos_iff.mpr hu
    rw [hq, List.length_append, List.length_append, show Word.introducer.length = 2 from rfl]
    omega
  have hno : Keyword.read? Word.introducer (q ++ y) = none := by
    rw [read?_introducer_append_right hlong, hr, Option.map_none]
  rcases hrest with ⟨p, hp⟩ | ⟨hp, before, hb⟩
  · obtain ⟨hmem, heq⟩ := eq_of_readProperty? hp
    have hread : readProperty? s (q ++ y) = some (p, b ++ y) := by
      rw [heq]
      simp only [readProperty?, List.append_assoc, hs.isPrefixFree.headProperty?_append hmem,
        Option.bind_some, Word.read?_introducer_append hy, Option.map_some]
    simp only [nextAt, hno, hread]
  · have hin : Word.introducer <:+: q := ⟨u, b, by rw [hq, List.append_assoc]⟩
    simp only [nextAt, hno, readProperty?_append_right hs hin hp, splitAtFirst?_append_right hb hy]

/-- Where criteria follow a subject, they go on with the text. -/
theorem next_append_of_resume (hs : s.IsPlain) (h : (read s t).next = .resume b)
    (hy : Opens (b ++ y)) : (read s (t ++ y)).next = .resume (b ++ y) := by
  rw [next_read] at h
  obtain ⟨u, hu⟩ := exists_eq_of_resume h
  obtain ⟨hrest, hfront⟩ := behindFront_suffix t
  have hmem : 'B' ∈ (readDistinct t).2 := by
    refine hrest.subset ?_
    rw [hu]
    exact List.mem_append_right u (List.mem_append_left b (by decide))
  rw [next_read_append (readDistinct_append_of_mem (hfront.subset hmem) y)
    (readLimit_append_of_mem hmem y)]
  exact nextAt_append_of_resume hs h hy

end QueryNames.Subject
