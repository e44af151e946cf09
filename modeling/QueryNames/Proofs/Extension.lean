import QueryNames.Proofs.Chain
import QueryNames.Proofs.SubjectSection

/-!
# Reading a text that goes on

What is read at the head of a text is read there still when the text goes on, unless a keyword or an
identifier runs from it into what is added. A text that no such word can enter is called a border
here. The text of a criterion is split off in the same way by whatever border follows it, and so are
all the criteria in front of one that changes.
-/

namespace QueryNames

open Text

namespace Text

private theorem maxOn?_map {α β : Type} (f : α → β) (size : β → Nat) (l : List α) :
    (l.map f).maxOn? size = (l.maxOn? (size ∘ f)).map f := by
  induction l with
  | nil => rfl
  | cons a l ih =>
    rw [List.map_cons, List.maxOn?_cons, List.maxOn?_cons, ih]
    cases l.maxOn? (size ∘ f) with
    | none => rfl
    | some b =>
      simp only [Option.map_some, Option.elim_some, maxOn_eq_if, Function.comp_apply]
      split <;> rfl

/-- Where every entry of a table gives the same up to a change, so does the longest one. -/
theorem longest?_map {α β γ : Type} {size : α → Nat} {read : α → Option β}
    {read' : α → Option γ} {table : List α} {f : β → γ}
    (h : ∀ a ∈ table, read' a = (read a).map f) :
    longest? size read' table = (longest? size read table).map fun m ↦ (m.1, f m.2) := by
  have hlist : (table.filterMap fun a ↦ (read' a).map (a, ·)) =
      (table.filterMap fun a ↦ (read a).map (a, ·)).map fun m ↦ (m.1, f m.2) := by
    rw [List.map_filterMap]
    refine List.filterMap_congr fun a ha ↦ ?_
    rw [h a ha, Option.map_map, Option.map_map]
    rfl
  rw [longest?, longest?, hlist, maxOn?_map]
  rfl

/-- A beginning of a text that is not all of it ends before the last character. -/
theorem prefix_dropLast {x w : Text} (hx : x <+: w) (hne : x ≠ w) : x <+: w.dropLast := by
  obtain ⟨r, rfl⟩ := hx
  have hr : r ≠ [] := by
    rintro rfl
    exact hne (List.append_nil x).symm
  rw [List.dropLast_append_of_ne_nil hr]
  exact List.prefix_append x _

/-- A text bars a word if the word cannot enter it from before: no proper ending of the word is its
beginning. -/
def Bars (y k : Text) : Prop := ∀ v ∈ k.tail.tails, v ≠ [] → ¬v <+: y

instance (y k : Text) : Decidable (Bars y k) := inferInstanceAs (Decidable (∀ _ ∈ _, _))

/-- The beginning of a text bars what the text does. -/
theorem Bars.of_isPrefix {u y k : Text} (h : Bars y k) (hu : u <+: y) : Bars u k :=
  fun v hv hne hpre ↦ h v hv hne (hpre.trans hu)

/-- A word that begins in front of a text that bars it ends there too. -/
theorem Bars.eq {b y k : Text} (h : Bars y k) (hb : b ≠ []) (hk : k <+: b ++ y)
    (hpre : b <+: k) : b = k := by
  obtain ⟨z, rfl⟩ := hpre
  rw [List.prefix_append_right_inj] at hk
  by_contra hne
  refine h z ?_ (fun hz ↦ hne (by rw [hz, List.append_nil])) hk
  rw [List.tail_append_of_ne_nil hb, List.mem_tails]
  exact List.suffix_append _ z

/-- A word in two texts in a row stands in one of them if the second one bars it. -/
theorem Bars.isInfix_append {t y k : Text} (h : Bars y k) (hk : k <:+: t ++ y) :
    k <:+: t ∨ k <:+: y := by
  induction t with
  | nil => exact Or.inr hk
  | cons c t ih =>
    rw [List.cons_append, List.infix_cons_iff, ← List.cons_append] at hk
    rcases hk with hpre | hin
    · rcases prefix_append_cases hpre with hp | ⟨z, -, rfl, -⟩
      · exact Or.inl hp.isInfix
      · have heq := h.eq (List.cons_ne_nil c t) hpre (List.prefix_append _ z)
        exact Or.inl (heq ▸ List.infix_rfl)
    · exact (ih hin).imp_left fun hi ↦ hi.trans (List.suffix_cons c t).isInfix

end Text

namespace Keyword

variable {α : Type} {word : α → Text} {table : List α} {k t y : Text}

/-- A keyword is read at the head of a text that goes on as before, unless it ends where the text
ends or reaches beyond that. -/
theorem read?_append_right (hk : endsInLetter k = true) (hend : t = k → Opens y)
    (hnew : k <+: t ++ y → t <+: k → t = k) : read? k (t ++ y) = (read? k t).map (· ++ y) := by
  refine Option.ext fun b ↦ ?_
  rw [read?_eq_some_iff_opens hk, Option.map_eq_some_iff]
  constructor
  · rintro ⟨heq, hb⟩
    have hpre : k <+: t ++ y := ⟨b, heq.symm⟩
    rcases prefix_append_cases hpre with ⟨d, hd⟩ | ⟨z, hz, hkz, -⟩
    · refine ⟨d, (read?_eq_some_iff_opens hk).mpr ⟨hd.symm, ?_⟩, ?_⟩
      · rw [← hd, List.append_assoc] at heq
        rw [← List.append_cancel_left heq] at hb
        exact hb.of_isPrefix (List.prefix_append d y)
      · rw [← hd, List.append_assoc] at heq
        exact List.append_cancel_left heq
    · have ht := hnew hpre ⟨z, hkz.symm⟩
      rw [ht, List.self_eq_append_right] at hkz
      exact absurd hkz hz
  · rintro ⟨d, hd, rfl⟩
    obtain ⟨rfl, hopens⟩ := (read?_eq_some_iff_opens hk).mp hd
    refine ⟨List.append_assoc _ _ _, hopens.append_of_nil ?_⟩
    rintro rfl
    exact hend (List.append_nil k)

/-- The longest keyword of a table is read at the head of a text that goes on as before, unless one
ends where the text ends or reaches beyond that. -/
theorem readLongest?_append_right (hk : ∀ a ∈ table, endsInLetter (word a) = true)
    (hend : ∀ a ∈ table, t = word a → Opens y)
    (hnew : ∀ a ∈ table, word a <+: t ++ y → t <+: word a → t = word a) :
    readLongest? word table (t ++ y) = (readLongest? word table t).map fun m ↦ (m.1, m.2 ++ y) := by
  have hread : ∀ a ∈ table, read? (word a) (t ++ y) = (read? (word a) t).map (· ++ y) :=
    fun a ha ↦ read?_append_right (hk a ha) (hend a ha) (hnew a ha)
  exact longest?_map hread

/-- A search finds nothing exactly where no keyword can be read at any place. -/
theorem splitAtFirst?_eq_none_iff :
    splitAtFirst? word table t = none ↔
      ∀ a b, t = a ++ b → b ≠ [] → readLongest? word table b = none := by
  induction t with
  | nil =>
    refine iff_of_true rfl fun a b hab hb ↦ ?_
    exact absurd (List.append_eq_nil_iff.mp hab.symm).2 hb
  | cons c t ih =>
    rw [splitAtFirst?]
    constructor
    · intro h a b hab hb
      split at h
      · cases h
      · next hnone =>
        cases a with
        | nil => rwa [← List.nil_append b, ← hab]
        | cons d a =>
          rw [Option.map_eq_none_iff] at h
          exact ih.mp h a b (List.cons.inj hab).2 hb
    · intro h
      have hc := h [] (c :: t) rfl (List.cons_ne_nil c t)
      rw [hc]
      simp only [Option.map_eq_none_iff]
      exact ih.mpr fun a b hab hb ↦ h (c :: a) b (by rw [hab, List.cons_append]) hb

/-- A keyword with which a text does not begin is not read there. -/
theorem read?_eq_none_of_not_prefix (h : ¬k <+: t) : read? k t = none := by
  cases hr : read? k t with
  | none => rfl
  | some b => exact absurd ⟨b, (read?_eq_some_iff.mp hr).1.symm⟩ h

/-- A keyword that does not stand in a text is read at none of its places. -/
theorem read?_eq_none_of_lacks {u : Text} (h : ¬k <:+: t) (hu : u <:+ t) : read? k u = none :=
  read?_eq_none_of_not_prefix fun hpre ↦ h (hpre.isInfix.trans hu.isInfix)

/-- A keyword has no place in a text exactly if it is read at none of its ends. -/
theorem count_eq_zero_iff :
    count k t = 0 ↔ ∀ a b, t = a ++ b → b ≠ [] → read? k b = none := by
  induction t with
  | nil =>
    refine iff_of_true rfl fun a b hab hb ↦ ?_
    exact absurd (List.append_eq_nil_iff.mp hab.symm).2 hb
  | cons c t ih =>
    rw [count, Nat.add_eq_zero_iff, ih]
    constructor
    · rintro ⟨hc, ht⟩ a b hab hb
      cases a with
      | nil =>
        rw [← List.nil_append b, ← hab]
        cases hr : read? k (c :: t) with
        | none => rfl
        | some behind =>
          rw [hr] at hc
          cases hc
      | cons d a => exact ht a b (List.cons.inj hab).2 hb
    · intro h
      refine ⟨?_, fun a b hab hb ↦ h (c :: a) b (by rw [hab, List.cons_append]) hb⟩
      rw [h [] (c :: t) rfl (List.cons_ne_nil c t)]
      rfl

/-- A keyword that does not stand in a text has no place there. -/
theorem count_eq_zero_of_lacks (h : ¬k <:+: t) : count k t = 0 :=
  count_eq_zero_iff.mpr fun a _ hab _ ↦ read?_eq_none_of_lacks h ⟨a, hab.symm⟩

/-- The places of a keyword in two texts in a row are those in each of them if the second one bars
the keyword. -/
theorem count_append_of_bars (hk : endsInLetter k = true) (hy : Opens y) (hbars : Bars y k) :
    count k (t ++ y) = count k t + count k y := by
  induction t with
  | nil => rw [List.nil_append, count_nil, Nat.zero_add]
  | cons c t ih =>
    have hread : read? k (c :: t ++ y) = (read? k (c :: t)).map (· ++ y) :=
      read?_append_right hk (fun _ ↦ hy) (hbars.eq (List.cons_ne_nil c t))
    rw [List.cons_append] at hread ⊢
    rw [count, count, hread, Option.isSome_map, ih, Nat.add_assoc]

/-- A search finds nothing in a text in which no keyword stands. -/
theorem splitAtFirst?_eq_none_of_lacks (h : ∀ a ∈ table, ¬word a <:+: t) :
    splitAtFirst? word table t = none := by
  refine splitAtFirst?_eq_none_iff.mpr fun a b hab _ ↦ readLongest?_eq_none_iff.mpr fun k hk ↦ ?_
  exact read?_eq_none_of_lacks (h k hk) ⟨a, hab.symm⟩

/-- No keyword can be read before the place where a search ends. -/
theorem readLongest?_eq_none_of_splitAtFirst? {before behind a b : Text} {x : α}
    (h : splitAtFirst? word table t = some (before, x, behind)) (hab : before = a ++ b)
    (hb : b ≠ []) : readLongest? word table (b ++ (word x ++ behind)) = none := by
  induction t generalizing before a with
  | nil => cases h
  | cons c t ih =>
    have heq := eq_of_splitAtFirst? h
    rw [splitAtFirst?] at h
    split at h
    · next m hm =>
      rw [Option.some.injEq, Prod.mk.injEq] at h
      rw [← h.1] at hab
      exact absurd (List.append_eq_nil_iff.mp hab.symm).2 hb
    · next hnone =>
      obtain ⟨m, hm, hmeq⟩ := Option.map_eq_some_iff.mp h
      obtain ⟨before', x', behind'⟩ := m
      rw [Prod.mk.injEq, Prod.mk.injEq] at hmeq
      obtain ⟨hbefore, rfl, rfl⟩ := hmeq
      cases a with
      | nil =>
        rw [← List.append_assoc, ← List.nil_append b, ← hab, ← heq]
        exact hnone
      | cons d a =>
        rw [← hbefore, List.cons_append] at hab
        exact ih hm (List.cons.inj hab).2

end Keyword

namespace Schema

variable {s : Schema} {t u y : Text}

/-- An identifier that would reach beyond a text would reach into any longer text behind it. -/
theorem Fits.of_isPrefix (h : s.Fits t y) (hu : u <+: y) : s.Fits t u :=
  fun p hp hpre ↦ h p hp (hpre.trans ((List.prefix_append_right_inj t).mpr hu))

/-- The property at the head of a text stays the same when the text goes on, unless an identifier
reaches beyond the text. -/
theorem Fits.headProperty?_append_right (h : s.Fits t y) :
    s.headProperty? (t ++ y) = (s.headProperty? t).map fun m ↦ (m.1, m.2 ++ y) := by
  have hinside : ∀ p ∈ s.properties, p.identifier <+: t ++ y → p.identifier <+: t :=
    fun p hp hpre ↦ List.prefix_of_prefix_length_le hpre (List.prefix_append t y) (h p hp hpre)
  cases hh : s.headProperty? t with
  | none =>
    refine headProperty?_eq_none_iff.mpr fun p hp hpre ↦ ?_
    exact headProperty?_eq_none_iff.mp hh p hp (hinside p hp hpre)
  | some m =>
    obtain ⟨hp, ht, hmax⟩ := headProperty?_eq_some_iff.mp hh
    refine headProperty?_eq_some_iff.mpr ⟨hp, ?_, fun q hq hpre ↦ hmax q hq (hinside q hq hpre)⟩
    rw [ht, List.append_assoc]

/-- What stands behind the property at the head of a text; the whole text if there is none. -/
def behindHead (s : Schema) (t : Text) : Text :=
  match s.headProperty? t with
  | some m => m.2
  | none => t

/-- What stands behind the property goes on where the text does. -/
theorem Fits.behindHead_append (h : s.Fits t y) :
    s.behindHead (t ++ y) = s.behindHead t ++ y := by
  simp only [behindHead, h.headProperty?_append_right]
  cases s.headProperty? t <;> rfl

end Schema

namespace Terminator

private theorem checked_endings :
    ∀ w ∈ all, ∀ x ∈ all, ∀ v ∈ w.word.tail.tails, v ≠ [] → ¬v <+: x.word ∧ ¬x.word <+: v := by
  decide

/-- A text that no word that ends a criterion enters from before. -/
def IsBorder (y : Text) : Prop := ∀ w : Terminator, Bars y w.word

/-- The beginning of a border is a border. -/
theorem IsBorder.of_isPrefix {u y : Text} (h : IsBorder y) (hu : u <+: y) : IsBorder u :=
  fun w ↦ (h w).of_isPrefix hu

/-- A border bars the markers that ignore letter case, since they end markers for all criteria. -/
theorem IsBorder.bars_marker {y : Text} (h : IsBorder y) (m : CaseMarker) : Bars y m.word := by
  intro v hv
  have hall : m.word.tail <:+ m.allWord.tail :=
    (List.tail_suffix m.word).trans ⟨"ll".toList, rfl⟩
  refine h (.marker m) v ?_
  rw [List.mem_tails] at hv ⊢
  exact hv.trans hall

/-- No other word that ends a criterion enters one of them. -/
theorem isBorder_word_append (x : Terminator) (y : Text) : IsBorder (x.word ++ y) := by
  intro w v hv hne hpre
  obtain ⟨hinside, hacross⟩ := checked_endings w (mem_all w) x (mem_all x) v hv hne
  rcases prefix_append_cases hpre with h | ⟨z, -, hz, -⟩
  · exact hinside h
  · exact hacross ⟨z, hz.symm⟩

/-- The beginning of a word that ends a criterion is a border. -/
theorem isBorder_of_prefix_word {x : Terminator} {y : Text} (h : y <+: x.word) : IsBorder y := by
  have hword := isBorder_word_append x []
  rw [List.append_nil] at hword
  exact hword.of_isPrefix h

/-- A word that ends a criterion opens, whatever follows it. -/
theorem opens_word_append (w : Terminator) (y : Text) : Opens (w.word ++ y) := by
  refine (opens_append_of_ne_nil (word_ne_nil w)).mpr ?_
  rcases w with (_ | _) | (_ | _) | _ <;> decide

end Terminator

namespace Predicate

variable {s : Schema} {t f y behind : Text} {w : Terminator}

/-- The text of a criterion ends at the first word behind its property that ends it. -/
theorem exists_splitCriterion_eq (s : Schema) (t : Text) :
    ∃ h, t = h ++ s.behindHead t ∧ splitCriterion s t =
      match Keyword.splitAtFirst? Terminator.word Terminator.all (s.behindHead t) with
      | some (before, m) => (h ++ before, some m)
      | none => (t, none) := by
  cases hh : s.headProperty? t with
  | none =>
    have hb : s.behindHead t = t := by simp only [Schema.behindHead, hh]
    refine ⟨[], by rw [hb, List.nil_append], ?_⟩
    simp only [splitCriterion, hb, hh]
    cases Keyword.splitAtFirst? Terminator.word Terminator.all t <;> rfl
  | some m =>
    obtain ⟨p, b⟩ := m
    have hb : s.behindHead t = b := by simp only [Schema.behindHead, hh]
    have ht := (Schema.eq_of_headProperty? hh).2
    refine ⟨p.identifier, by rw [hb, ← ht], ?_⟩
    simp only [splitCriterion, hb, hh]
    cases Keyword.splitAtFirst? Terminator.word Terminator.all b with
    | none => exact Prod.ext ht.symm rfl
    | some m => rfl

/-- Nothing ends a criterion exactly where no word that could can be read behind its property. -/
theorem splitCriterion_eq_self_iff :
    splitCriterion s t = (t, none) ↔
      Keyword.splitAtFirst? Terminator.word Terminator.all (s.behindHead t) = none := by
  obtain ⟨h, -, hsplit⟩ := exists_splitCriterion_eq s t
  rw [hsplit]
  cases Keyword.splitAtFirst? Terminator.word Terminator.all (s.behindHead t) with
  | none => exact iff_of_true rfl rfl
  | some m => exact iff_of_false nofun nofun

/-- Nothing ends the text of a criterion that has been split off. -/
theorem splitCriterion_self {m : Option (Terminator × Text)} (h : splitCriterion s t = (f, m)) :
    splitCriterion s f = (f, none) := by
  cases m with
  | none =>
    obtain rfl := eq_of_splitCriterion_none h
    exact h
  | some m =>
    obtain ⟨w, behind⟩ := m
    have ht : t = f ++ (w.word ++ behind) := by
      rw [eq_of_splitCriterion h, List.append_assoc]
    have hfits := fits_of_splitCriterion h ht
    obtain ⟨p, hp, hsplit⟩ := exists_splitCriterion_eq s t
    rw [hsplit] at h
    rw [splitCriterion_eq_self_iff]
    have hhead : s.behindHead t = s.behindHead f ++ (w.word ++ behind) := by
      rw [ht, hfits.behindHead_append]
    cases hfirst : Keyword.splitAtFirst? Terminator.word Terminator.all (s.behindHead t) with
    | none =>
      rw [hfirst] at h
      cases h
    | some m =>
      obtain ⟨before, w', behind'⟩ := m
      rw [hfirst] at h
      simp only [Prod.mk.injEq, Option.some.injEq] at h
      obtain ⟨-, rfl, rfl⟩ := h
      have hbefore : s.behindHead f = before := by
        have heq := Keyword.eq_of_splitAtFirst? hfirst
        rw [hhead, List.append_assoc] at heq
        exact List.append_cancel_right heq
      rw [hbefore, Keyword.splitAtFirst?_eq_none_iff]
      intro a b hab hb
      have hnone := Keyword.readLongest?_eq_none_of_splitAtFirst? hfirst hab hb
      refine Keyword.readLongest?_eq_none_iff.mpr fun x hx ↦ ?_
      have hx' := Keyword.readLongest?_eq_none_iff.mp hnone x hx
      rw [Keyword.read?_append_right (Terminator.endsInLetter_word x)
        (fun _ ↦ Terminator.opens_word_append w' behind')
        ((Terminator.isBorder_word_append w' behind' x).eq hb)] at hx'
      exact Option.map_eq_none_iff.mp hx'

/-- Behind the text of a criterion that nothing ends, the search for a word that does begins with
the border that follows. -/
theorem splitCriterion_append (h : splitCriterion s f = (f, none)) (hfits : s.Fits f y)
    (hy : Terminator.IsBorder y) :
    splitCriterion s (f ++ y) =
      match Keyword.splitAtFirst? Terminator.word Terminator.all y with
      | some (before, m) => (f ++ before, some m)
      | none => (f ++ y, none) := by
  obtain ⟨p, hp, hsplit⟩ := exists_splitCriterion_eq s (f ++ y)
  rw [hfits.behindHead_append] at hp hsplit
  have hf : f = p ++ s.behindHead f := by
    rw [← List.append_assoc] at hp
    exact List.append_cancel_right hp
  have hpass : ∀ a b, s.behindHead f = a ++ b → b ≠ [] →
      Keyword.readLongest? Terminator.word Terminator.all (b ++ y) = none := by
    intro a b hab hb
    rw [splitCriterion_eq_self_iff, Keyword.splitAtFirst?_eq_none_iff] at h
    refine Keyword.readLongest?_eq_none_iff.mpr fun x hx ↦ ?_
    have hnone := Keyword.readLongest?_eq_none_iff.mp (h a b hab hb) x hx
    have hne : b ≠ x.word := by
      rintro rfl
      rw [Keyword.read?_self] at hnone
      cases hnone
    rw [Keyword.read?_append_right (Terminator.endsInLetter_word x) (fun he ↦ absurd he hne)
      ((hy x).eq hb), hnone, Option.map_none]
  rw [hsplit, Keyword.splitAtFirst?_append hpass]
  cases Keyword.splitAtFirst? Terminator.word Terminator.all y with
  | none => rfl
  | some m =>
    simp only [Option.map_some, Prod.mk.injEq, and_true]
    rw [← List.append_assoc, ← hf]

/-- The text of a criterion is split off by any word that may end it, unless an identifier reaches
into what follows. -/
theorem splitCriterion_append_word (h : splitCriterion s f = (f, none)) (hy : Opens y)
    (hfits : s.Fits f (w.word ++ y)) : splitCriterion s (f ++ (w.word ++ y)) = (f, some (w, y)) := by
  have hne : w.word ++ y ≠ [] := List.append_ne_nil_of_left_ne_nil (Terminator.word_ne_nil w) y
  rw [splitCriterion_append h hfits (Terminator.isBorder_word_append w y),
    Keyword.splitAtFirst?_of_readLongest? hne (Terminator.readLongest?_append w hy)]
  simp only [List.append_nil]

end Predicate

namespace Text

/-- The digits at the head of a text stay the same when the text goes on, unless it ends with
them. -/
theorem digits_append_right {t y : Text}
    (h : behindDigits t = [] → ∀ c ∈ y.head?, c.isDigit = false) :
    digits (t ++ y) = digits t ∧ behindDigits (t ++ y) = behindDigits t ++ y := by
  have hdigits : ∀ c ∈ digits t, c.isDigit = true := fun c hc ↦ List.mem_takeWhile_imp hc
  have hhead : ∀ c ∈ (behindDigits t ++ y).head?, c.isDigit = false := by
    intro c hc
    cases hb : behindDigits t with
    | nil =>
      rw [hb] at hc
      exact h hb c hc
    | cons d b =>
      rw [hb] at hc
      obtain rfl : d = c := Option.some.inj hc
      have hn := List.head?_dropWhile_not Char.isDigit t
      rw [← behindDigits, hb] at hn
      simpa using hn
  have happend := digits_append hdigits hhead
  rwa [← List.append_assoc, digits_append_behindDigits] at happend

end Text

namespace Subject

variable {t y : Text}

/-- The word for different results is read at the head of a text that goes on as before, unless it
ends where the text ends or reaches beyond that. -/
theorem readDistinct_append_right (hend : t = Word.distinct → Opens y)
    (hnew : Word.distinct <+: t ++ y → t <+: Word.distinct → t = Word.distinct) :
    readDistinct (t ++ y) = ((readDistinct t).1, (readDistinct t).2 ++ y) := by
  rw [readDistinct, Keyword.read?_append_right (by decide) hend hnew, readDistinct]
  cases Keyword.read? Word.distinct t <;> rfl

/-- The limit is read at the head of a text that goes on as before, unless it ends where the text
ends or reaches beyond that. -/
theorem readLimit_append_right (hend : ∀ w : LimitWord, t = w.word → Opens y)
    (hnew : ∀ w : LimitWord, w.word <+: t ++ y → t <+: w.word → t = w.word)
    (hdigit : (readLimit t).1 ≠ none → (readLimit t).2 = [] → ∀ c ∈ y.head?, c.isDigit = false) :
    readLimit (t ++ y) = ((readLimit t).1, (readLimit t).2 ++ y) := by
  have hread : Keyword.readLongest? LimitWord.word LimitWord.all (t ++ y) =
      (Keyword.readLongest? LimitWord.word LimitWord.all t).map fun m ↦ (m.1, m.2 ++ y) :=
    Keyword.readLongest?_append_right
      (fun w _ ↦ endsInLetter_of_isCapitalWord w.isCapitalWord_word) (fun w _ ↦ hend w)
      (fun w _ ↦ hnew w)
  rw [readLimit] at hdigit ⊢
  rw [hread, readLimit]
  cases hl : Keyword.readLongest? LimitWord.word LimitWord.all t with
  | none => rfl
  | some m =>
    simp only [hl, ne_eq, reduceCtorEq, not_false_eq_true, true_implies] at hdigit
    obtain ⟨hds, hb⟩ := digits_append_right hdigit
    simp only [Option.map_some, hds, hb]

private theorem notMem_front : 'B' ∉ Word.distinct ∧ ∀ w : LimitWord, 'B' ∉ w.word := by
  refine ⟨by decide, fun w ↦ ?_⟩
  cases w <;> decide

/-- Where `By` stands behind it, the word for different results is read as before. -/
theorem readDistinct_append_of_mem (h : 'B' ∈ t) (y : Text) :
    readDistinct (t ++ y) = ((readDistinct t).1, (readDistinct t).2 ++ y) := by
  have hno : ¬t <+: Word.distinct := fun hpre ↦ notMem_front.1 (hpre.subset h)
  exact readDistinct_append_right (fun he ↦ absurd (he ▸ List.prefix_rfl) hno)
    fun _ hpre ↦ absurd hpre hno

/-- Where `By` stands behind it, the limit is read as before. -/
theorem readLimit_append_of_mem (h : 'B' ∈ t) (y : Text) :
    readLimit (t ++ y) = ((readLimit t).1, (readLimit t).2 ++ y) := by
  have hno : ∀ w : LimitWord, ¬t <+: w.word := fun w hpre ↦ notMem_front.2 w (hpre.subset h)
  refine readLimit_append_right (fun w he ↦ absurd (he ▸ List.prefix_rfl) (hno w))
    (fun w _ hpre ↦ absurd hpre (hno w)) fun hsome hnil ↦ ?_
  rw [readLimit] at hsome hnil
  cases hl : Keyword.readLongest? LimitWord.word LimitWord.all t with
  | none =>
    rw [hl] at hsome
    exact absurd rfl hsome
  | some m =>
    obtain ⟨w, behind⟩ := m
    rw [hl] at hnil
    have hdigits : 'B' ∈ digits behind := by
      rw [Keyword.eq_of_readLongest? hl] at h
      have hbehind := (List.mem_append.mp h).resolve_left (notMem_front.2 w)
      rwa [← digits_append_behindDigits behind, show behindDigits behind = [] from hnil,
        List.append_nil] at hbehind
    cases List.mem_takeWhile_imp hdigits

end Subject

end QueryNames
