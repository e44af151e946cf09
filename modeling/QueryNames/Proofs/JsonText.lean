import QueryNames.Json.Printer
import QueryNames.Json.Reader
import QueryNames.Proofs.Extension

/-!
# Reading what is written as JSON

A value is read back from the text that it is written as, wherever that text stands. Letters may
change on the way, because a control character is written by its number, but what strings stand for
does not.
-/

namespace QueryNames

namespace JsonLetter

/-- The letter can be written: a code unit needs four hexadecimal digits at most. -/
def IsWritable : JsonLetter → Prop
  | .char _ => True
  | .unit code => code < 65536

/-- The letters of a text can be written. -/
theorem isWritable_of_mem_ofText {t : Text} : ∀ l ∈ ofText t, l.IsWritable :=
  List.forall_mem_map.mpr fun _ _ ↦ trivial

/-- The letter that is read where a letter is written. Control characters without a short form are
written by their numbers. -/
def reread : JsonLetter → JsonLetter
  | .char c =>
    if c.toNat < 0x20 ∧ c ∉ ['\x08', '\x0c', '\n', '\r', '\t'] then .unit c.toNat else .char c
  | .unit code => .unit code

/-- A hexadecimal digit has its value. -/
theorem hexValue?_hexDigit : ∀ n < 16, hexValue? (hexDigit n) = some n := by decide

/-- A code unit is read where it is written. -/
theorem readAll?_unitText_append {code : Nat} (h : code < 65536) (rest : Text) :
    readAll? (unitText code ++ rest) = (readAll? rest).map fun m ↦ (.unit code :: m.1, m.2) := by
  have hdigits : unit? (hexDigit (code / 4096 % 16)) (hexDigit (code / 256 % 16))
      (hexDigit (code / 16 % 16)) (hexDigit (code % 16)) = some code := by
    simp only [unit?, hexValue?_hexDigit _ (Nat.mod_lt _ (by decide)), Option.bind_eq_bind,
      Option.bind_some, Option.pure_def, Option.some_inj]
    omega
  simp only [unitText, List.cons_append, List.nil_append, readAll?, hdigits]
  cases readAll? rest <;> rfl

private theorem readAll?_escape {e c : Char} (h : escaped? e = some c) (rest : Text) :
    readAll? ('\\' :: e :: rest) = (readAll? rest).map fun m ↦ (.char c :: m.1, m.2) := by
  have hu : e ≠ 'u' := by
    rintro rfl
    cases h
  rw [readAll?]
  · rw [h]
    cases readAll? rest <;> rfl
  · intro _ _ _ _ _ he
    exact absurd he hu

private theorem readAll?_cons {c : Char} (hquote : c ≠ '"') (hslash : c ≠ '\\')
    (hprints : ¬c.toNat < 0x20) (rest : Text) :
    readAll? (c :: rest) = (readAll? rest).map fun m ↦ (.char c :: m.1, m.2) := by
  rw [readAll?]
  · rw [if_neg (not_or.mpr ⟨hslash, hprints⟩)]
  · exact hquote
  · intro _ _ _ _ _ he
    exact absurd he hslash
  · intro _ _ he
    exact absurd he hslash

/-- A letter is read where it is written. -/
theorem readAll?_text_append {l : JsonLetter} (h : l.IsWritable) (rest : Text) :
    readAll? (l.text ++ rest) = (readAll? rest).map fun m ↦ (l.reread :: m.1, m.2) := by
  unfold text
  split
  · exact readAll?_unitText_append h rest
  iterate 7
    · exact readAll?_escape rfl rest
  · next c hquote hslash hb hf hn hr ht =>
    by_cases hcontrol : c.toNat < 0x20
    · have hlong : c ∉ ['\x08', '\x0c', '\n', '\r', '\t'] := by
        simp only [List.mem_cons, List.not_mem_nil, or_false, not_or]
        exact ⟨hb, hf, hn, hr, ht⟩
      rw [if_pos hcontrol, reread, if_pos ⟨hcontrol, hlong⟩]
      exact readAll?_unitText_append (by omega) rest
    · rw [if_neg hcontrol, reread, if_neg fun h ↦ hcontrol h.1]
      exact readAll?_cons hquote hslash hcontrol rest

/-- The letters of a string are read up to its closing quote. -/
theorem readAll?_flatMap_text_append {ls : List JsonLetter} (h : ∀ l ∈ ls, l.IsWritable)
    (rest : Text) : readAll? (ls.flatMap text ++ '"' :: rest) = some (ls.map reread, rest) := by
  induction ls with
  | nil => rfl
  | cons l ls ih =>
    obtain ⟨hl, hls⟩ := List.forall_mem_cons.mp h
    rw [List.flatMap_cons, List.append_assoc, readAll?_text_append hl, ih hls]
    rfl

private theorem half_eq_false_of_lt {code : Nat} (h : code < 0x20) :
    isHighHalf code = false ∧ isLowHalf code = false := by
  simp only [isHighHalf, isLowHalf]
  grind

/-- A code unit that is no half of a pair stands for a character of its own. -/
theorem toText?_unit_cons {code : Nat} (hhigh : isHighHalf code = false)
    (hlow : isLowHalf code = false) (ls : List JsonLetter) :
    toText? (.unit code :: ls) = (toText? ls).map (Char.ofNat code :: ·) := by
  rcases ls with _ | ⟨c | low, ls⟩ <;> simp [toText?, hhigh, hlow]

/-- A character stands for itself, even if it is written by its number. -/
theorem toText?_reread_char_cons (c : Char) (ls : List JsonLetter) :
    toText? (reread (.char c) :: ls) = (toText? ls).map (c :: ·) := by
  rw [reread]
  split
  · next h =>
    obtain ⟨hhigh, hlow⟩ := half_eq_false_of_lt h.1
    rw [toText?_unit_cons hhigh hlow, Char.ofNat_toNat]
  · rw [toText?]

/-- Half a pair stays alone in front of a character, even if that is written by its number. -/
theorem toText?_half_cons_reread_char {code : Nat} (h : isHighHalf code || isLowHalf code)
    (c : Char) (ls : List JsonLetter) :
    toText? (.unit code :: reread (.char c) :: ls) = none := by
  rw [reread]
  split
  · next hc =>
    rw [toText?, (half_eq_false_of_lt hc.1).2]
    grind
  · simp [toText?, h]

/-- What a string stands for does not depend on how its letters are written. -/
theorem toText?_map_reread (ls : List JsonLetter) : toText? (ls.map reread) = toText? ls := by
  fun_induction toText? ls with
  | case1 => rfl
  | case2 c ls ih => rw [List.map_cons, toText?_reread_char_cons, ih]
  | case3 high low ls hhigh hlow ih => simp [reread, toText?, hhigh, hlow, ih]
  | case4 high low ls hhigh hlow => simp [reread, toText?, hhigh, hlow]
  | case5 high low ls hhigh hlow => simp [reread, toText?, hhigh, hlow]
  | case6 high low ls hhigh hlow ih =>
    simp only [List.map_cons, reread] at ih
    simp [reread, toText?, hhigh, hlow, ih]
  | case7 code ls hnext hhalf =>
    match ls with
    | [] => simp [reread, toText?, hhalf]
    | .char c :: ls => exact toText?_half_cons_reread_char hhalf c (ls.map reread)
    | .unit low :: ls => exact (hnext low ls rfl).elim
  | case8 code ls hnext hhalf ih =>
    simp only [Bool.or_eq_true, not_or, Bool.not_eq_true] at hhalf
    rw [List.map_cons, reread, toText?_unit_cons hhalf.1 hhalf.2, ih]

end JsonLetter

namespace Json

/-- What may follow a value within a text: the end of the text or a character that parts values or
closes them. -/
def Closes (t : Text) : Prop := ∀ c ∈ t.head?, c ∈ [',', ']', '\x7d']

/-- No other character follows a value. -/
theorem Closes.ne_cons {y : Text} (h : Closes y) {c : Char} (hc : c ∉ [',', ']', '\x7d'])
    (r : Text) : y ≠ c :: r := by
  rintro rfl
  exact hc (h c rfl)

/-- Digits are read where they are written. -/
theorem readDigits?_append {t ds b y : Text} (h : readDigits? t = some (ds, b)) (hy : Closes y) :
    readDigits? (t ++ y) = some (ds, b ++ y) := by
  have hdigit : ∀ c ∈ y.head?, c.isDigit = false := by
    intro c hc
    have hends : [',', ']', '\x7d'].all (fun c ↦ !c.isDigit) = true := by decide
    simpa using List.all_eq_true.mp hends c (hy c hc)
  obtain ⟨hdigits, hbehind⟩ := Text.digits_append_right fun _ ↦ hdigit
  rw [readDigits?, hdigits, hbehind]
  rw [readDigits?] at h
  split at h
  · cases h
  · next hne =>
    rw [if_neg hne]
    cases h
    rfl

/-- The part in front of the point is read where it is written. -/
theorem readWhole?_append {t ds b y : Text} (h : readWhole? t = some (ds, b)) (hy : Closes y) :
    readWhole? (t ++ y) = some (ds, b ++ y) := by
  rcases t with _ | ⟨c, t⟩
  · cases h
  · by_cases hc : c = '0'
    · subst hc
      cases h
      rfl
    · have hdigits : ∀ t, readWhole? (c :: t) = readDigits? (c :: t) := fun t ↦ by
        rw [readWhole?]
        intro _ he
        exact hc (List.cons.inj he).1
      rw [List.cons_append, hdigits]
      exact readDigits?_append ((hdigits t).symm.trans h) hy

/-- A fraction is read where it is written. -/
theorem readFraction?_append {t f b y : Text} (h : readFraction? t = some (f, b))
    (hy : Closes y) : readFraction? (t ++ y) = some (f, b ++ y) := by
  have habsent : ∀ t : Text, (∀ r, t ≠ '.' :: r) → readFraction? t = some ([], t) := fun t ht ↦ by
    rw [readFraction?]
    exact ht
  rcases t with _ | ⟨c, t⟩
  · cases h
    exact habsent y (hy.ne_cons (by decide))
  · by_cases hc : c = '.'
    · subst hc
      obtain ⟨⟨ds, b'⟩, hds, he⟩ := Option.map_eq_some_iff.mp h
      cases he
      show (readDigits? (t ++ y)).map _ = _
      rw [readDigits?_append hds hy]
      rfl
    · have hne : ∀ u r, c :: u ≠ '.' :: r := fun _ _ he ↦ hc (List.cons.inj he).1
      rw [habsent _ (hne t)] at h
      cases h
      exact habsent _ (hne (t ++ y))

/-- The sign of an exponent is read where it is written. -/
theorem readSign_append (t : Text) {y : Text} (hy : Closes y) :
    readSign (t ++ y) = ((readSign t).1, (readSign t).2 ++ y) := by
  have habsent : ∀ t : Text, (∀ r, t ≠ '+' :: r) → (∀ r, t ≠ '-' :: r) → readSign t = ([], t) :=
    fun t hplus hminus ↦ by
      rw [readSign]
      · exact hplus
      · exact hminus
  fun_cases readSign t with
  | case1 => rfl
  | case2 => rfl
  | case3 t hplus hminus =>
    rcases t with _ | ⟨c, t⟩
    · exact habsent y (hy.ne_cons (by decide)) (hy.ne_cons (by decide))
    · refine habsent _ (fun r he ↦ ?_) (fun r he ↦ ?_)
      · exact hplus t (by rw [(List.cons.inj he).1])
      · exact hminus t (by rw [(List.cons.inj he).1])

/-- An exponent is read where it is written. -/
theorem readExponent?_append {t e b y : Text} (h : readExponent? t = some (e, b))
    (hy : Closes y) : readExponent? (t ++ y) = some (e, b ++ y) := by
  rcases t with _ | ⟨c, t⟩
  · cases h
    rcases y with _ | ⟨c, y⟩
    · rfl
    · have hc : ¬(c = 'e' ∨ c = 'E') := by
        rintro (rfl | rfl) <;> exact hy.ne_cons (by decide) y rfl
      rw [List.nil_append, readExponent?, if_neg hc]
  · rw [readExponent?] at h
    rw [List.cons_append, readExponent?, readSign_append t hy]
    split at h
    · next hc =>
      have h : (readDigits? (readSign t).2).map (fun m ↦ (c :: (readSign t).1 ++ m.1, m.2)) =
        some (e, b) := h
      obtain ⟨⟨ds, b'⟩, hds, he⟩ := Option.map_eq_some_iff.mp h
      cases he
      rw [if_pos hc]
      show (readDigits? ((readSign t).2 ++ y)).map _ = _
      rw [readDigits?_append hds hy]
      rfl
    · next hc =>
      cases h
      rw [if_neg hc]
      rfl

/-- The text has the sign, or none if that is empty, and `u` behind it. -/
def IsSigned (t sign u : Text) : Prop :=
  sign = ['-'] ∧ t = '-' :: u ∨ sign = [] ∧ t = u ∧ ∀ r, u ≠ '-' :: r

/-- A number is a sign, a whole part, a fraction and an exponent, which stand behind each other. -/
theorem readNumber?_eq_some_iff {t n b : Text} :
    readNumber? t = some (n, b) ↔ ∃ sign u w t₁ f t₂ e, IsSigned t sign u ∧
      readWhole? u = some (w, t₁) ∧ readFraction? t₁ = some (f, t₂) ∧
      readExponent? t₂ = some (e, b) ∧ n = sign ++ w ++ f ++ e := by
  rw [readNumber?.eq_def]
  simp only [Option.bind_eq_bind, Option.bind_eq_some_iff, Option.pure_def, Option.some_inj,
    Prod.exists, Prod.mk.injEq]
  constructor
  · rintro ⟨w, t₁, hw, f, t₂, hf, e, t₃, he, rfl, rfl⟩
    split at hw
    · next u => exact ⟨_, u, w, t₁, f, t₂, e, .inl ⟨rfl, rfl⟩, hw, hf, he, rfl⟩
    · next hne =>
      exact ⟨_, t, w, t₁, f, t₂, e, .inr ⟨rfl, rfl, hne⟩, hw, hf, he, rfl⟩
  · rintro ⟨sign, u, w, t₁, f, t₂, e, ⟨rfl, rfl⟩ | ⟨rfl, rfl, hne⟩, hw, hf, he, rfl⟩
    · exact ⟨w, t₁, hw, f, t₂, hf, e, b, he, rfl, rfl⟩
    · split
      · next u => exact (hne u rfl).elim
      · exact ⟨w, t₁, hw, f, t₂, hf, e, b, he, rfl, rfl⟩

/-- A number is read where it is written. -/
theorem readNumber?_append {t n b y : Text} (h : readNumber? t = some (n, b))
    (hy : Closes y) : readNumber? (t ++ y) = some (n, b ++ y) := by
  obtain ⟨sign, u, w, t₁, f, t₂, e, hsign, hw, hf, he, hn⟩ := readNumber?_eq_some_iff.mp h
  refine readNumber?_eq_some_iff.mpr ⟨sign, u ++ y, w, t₁ ++ y, f, t₂ ++ y, e, ?_,
    readWhole?_append hw hy, readFraction?_append hf hy, readExponent?_append he hy, hn⟩
  obtain ⟨hs, rfl⟩ | ⟨hs, rfl, hne⟩ := hsign
  · exact .inl ⟨hs, rfl⟩
  · rcases t with _ | ⟨c, t⟩
    · cases hw
    · exact .inr ⟨hs, rfl, fun r he ↦ hne t (by rw [(List.cons.inj he).1])⟩

/-- The text is a number and nothing else. -/
def IsNumeral (t : Text) : Prop := readNumber? t = some (t, [])

example : IsNumeral "-10.50e+3".toList := by rfl

private theorem sizeOf_item_lt {items : List Json} {item : Json} (h : item ∈ items) :
    sizeOf item < sizeOf (Json.array items) := by
  have := List.sizeOf_lt_of_mem h
  simp only [array.sizeOf_spec]
  omega

private theorem sizeOf_member_lt {members : List (List JsonLetter × Json)}
    {m : List JsonLetter × Json} (h : m ∈ members) :
    sizeOf m.2 < sizeOf (Json.object members) := by
  have hm := List.sizeOf_lt_of_mem h
  rcases m with ⟨key, value⟩
  simp only [Prod.mk.sizeOf_spec, object.sizeOf_spec] at hm ⊢
  omega

/-- The value can be written: its numbers are numbers and its strings have code units alone. -/
def IsWritable : Json → Prop
  | .number literal => IsNumeral literal
  | .string letters => ∀ l ∈ letters, l.IsWritable
  | .array items => ∀ item ∈ items, item.IsWritable
  | .object members => ∀ m ∈ members, (∀ l ∈ m.1, l.IsWritable) ∧ m.2.IsWritable
  | _ => True
decreasing_by
  · exact sizeOf_item_lt ‹_›
  · exact sizeOf_member_lt ‹_›

/-- The value that is read where a value is written. -/
def reread : Json → Json
  | .string letters => .string (letters.map JsonLetter.reread)
  | .array items => .array (items.map reread)
  | .object members => .object (members.map fun m ↦ (m.1.map JsonLetter.reread, m.2.reread))
  | v => v
decreasing_by
  · exact sizeOf_item_lt ‹_›
  · exact sizeOf_member_lt ‹_›

/-- A number begins with a sign or a digit. -/
theorem exists_head_of_isNumeral {t : Text} (h : IsNumeral t) :
    ∃ c r, t = c :: r ∧ (c = '-' ∨ c.isDigit) := by
  obtain ⟨sign, u, w, t₁, f, t₂, e, ⟨rfl, rfl⟩ | ⟨rfl, rfl, hne⟩, hw, -⟩ :=
    readNumber?_eq_some_iff.mp h
  · exact ⟨_, _, rfl, .inl rfl⟩
  · rcases t with _ | ⟨c, t⟩
    · cases hw
    · refine ⟨c, t, rfl, .inr ?_⟩
      rw [readWhole?.eq_def] at hw
      split at hw
      · next hc => exact (List.cons.inj hc).1 ▸ rfl
      · rw [readDigits?, Text.digits] at hw
        by_contra hdigit
        rw [List.takeWhile_cons_of_neg hdigit] at hw
        cases hw

private theorem notMem_of_beginsNumber {c : Char} (h : c = '-' ∨ c.isDigit = true) :
    c ∉ [' ', '\t', '\n', '\r', ']', 'n', 't', 'f', '"', '[', '\x7b'] := by
  have hall : [' ', '\t', '\n', '\r', ']', 'n', 't', 'f', '"', '[', '\x7b'].all
      (fun c ↦ c != '-' && !c.isDigit) = true := by decide
  intro hc
  have hno := List.all_eq_true.mp hall c hc
  rcases h with rfl | h
  · cases hno
  · rw [h, Bool.not_true, Bool.and_false] at hno
    cases hno

/-- Nothing is skipped in front of a character that is no blank. -/
theorem skipBlanks_cons {c : Char} (h : isBlank c = false) (t : Text) :
    skipBlanks (c :: t) = c :: t := by
  rw [skipBlanks, List.dropWhile_cons_of_neg (by simp [h])]

/-- A value begins with a character that neither is blank nor closes an array. -/
theorem exists_head_of_isWritable {v : Json} (h : v.IsWritable) :
    ∃ c r, v.text = c :: r ∧ isBlank c = false ∧ c ≠ ']' := by
  cases v with
  | number literal =>
    rw [IsWritable] at h
    obtain ⟨c, r, rfl, hc⟩ := exists_head_of_isNumeral h
    have hnot := notMem_of_beginsNumber hc
    simp only [List.mem_cons, not_or] at hnot
    obtain ⟨hspace, htab, hnewline, hreturn, hend, -⟩ := hnot
    exact ⟨c, r, rfl, by simp [isBlank, hspace, htab, hnewline, hreturn], hend⟩
  | bool b => cases b <;> exact ⟨_, _, rfl, by decide, by decide⟩
  | _ => exact ⟨_, _, rfl, by decide, by decide⟩

/-- A number is read by its own reader. -/
theorem readValue?_of_isNumeral {t : Text} (h : IsNumeral t) (fuel : Nat) {y : Text}
    (hy : Closes y) : readValue? (fuel + 1) (t ++ y) = some (.number t, y) := by
  have hread := readNumber?_append h hy
  obtain ⟨c, r, rfl, hc⟩ := exists_head_of_isNumeral h
  have hwritable : IsWritable (.number (c :: r)) := by rwa [IsWritable]
  obtain ⟨_, _, hcons, hblank, -⟩ := exists_head_of_isWritable hwritable
  have hother : ∀ d ∈ ['n', 't', 'f', '"', '[', '\x7b'], ∀ u r, c :: u ≠ d :: r := by
    intro d hd u r he
    refine notMem_of_beginsNumber hc (List.mem_append_right [' ', '\t', '\n', '\r', ']'] ?_)
    exact (List.cons.inj he).1 ▸ hd
  rw [List.cons_append, readValue?, skipBlanks_cons ((List.cons.inj hcons).1 ▸ hblank)]
  split
  iterate 6
    · next he => exact absurd he (hother _ (by decide) _ _)
  · rw [← List.cons_append, hread]
    rfl

/-- The items of an array begin like its first item. -/
theorem exists_itemsText_append (item : Json) (items : List Json) (y : Text) :
    ∃ t, itemsText (item :: items) ++ y = item.text ++ t := by
  rcases items with _ | ⟨next, items⟩
  · exact ⟨y, rfl⟩
  · exact ⟨[','] ++ itemsText (next :: items) ++ y, by simp only [itemsText, List.append_assoc]⟩

/-- An array that is not empty is read item by item. -/
theorem readValue?_array_cons {item : Json} (h : item.IsWritable) (items : List Json) (fuel : Nat)
    (y : Text) :
    readValue? (fuel + 1) ((array (item :: items)).text ++ y) =
      (readItems? fuel (itemsText (item :: items) ++ ']' :: y)).map
        fun m ↦ (.array m.1, m.2) := by
  obtain ⟨c, r, hc, hblank, hend⟩ := exists_head_of_isWritable h
  obtain ⟨t, ht⟩ := exists_itemsText_append item items (']' :: y)
  have htext : (array (item :: items)).text ++ y =
      '[' :: (itemsText (item :: items) ++ ']' :: y) := by
    simp only [text, List.append_assoc, List.cons_append, List.nil_append]
  rw [htext, ht, hc, List.cons_append, readValue?, skipBlanks_cons (by decide)]
  simp only [skipBlanks_cons hblank]
  split
  · next he => exact absurd (List.cons.inj he).1 hend
  · rfl

/-- A key is read where it is written. -/
theorem readKey?_quoted_append {key : List JsonLetter} (h : ∀ l ∈ key, l.IsWritable) (y : Text) :
    readKey? (quoted key ++ [':'] ++ y) = some (key.map JsonLetter.reread, y) := by
  have htext : quoted key ++ [':'] ++ y =
      '"' :: (key.flatMap JsonLetter.text ++ '"' :: ':' :: y) := by
    simp only [quoted, List.append_assoc, List.cons_append, List.nil_append]
  rw [htext, readKey?, skipBlanks_cons (by decide)]
  simp only [JsonLetter.readAll?_flatMap_text_append h]
  rw [skipBlanks_cons (by decide)]
  rfl

/-- The members of an object begin with a quote. -/
theorem exists_membersText_append (m : List JsonLetter × Json)
    (members : List (List JsonLetter × Json)) (y : Text) :
    ∃ t, membersText (m :: members) ++ y = '"' :: t := by
  rcases members with _ | ⟨next, members⟩ <;> exact ⟨_, rfl⟩

/-- An object that is not empty is read member by member. -/
theorem readValue?_object_cons (m : List JsonLetter × Json)
    (members : List (List JsonLetter × Json)) (fuel : Nat) (y : Text) :
    readValue? (fuel + 1) ((object (m :: members)).text ++ y) =
      (readMembers? fuel (membersText (m :: members) ++ '\x7d' :: y)).map
        fun n ↦ (.object n.1, n.2) := by
  obtain ⟨t, ht⟩ := exists_membersText_append m members ('\x7d' :: y)
  have htext : (object (m :: members)).text ++ y =
      '\x7b' :: (membersText (m :: members) ++ '\x7d' :: y) := by
    simp only [text, List.append_assoc, List.cons_append, List.nil_append]
  rw [htext, ht, readValue?, skipBlanks_cons (by decide)]
  simp only [skipBlanks_cons (show isBlank '"' = false by decide)]
  rfl

-- The readers call each other as the printers do, so the induction is on what is printed. Two steps
-- of fuel for each character printed pay for every call.

mutual

/-- A value is read where it is written. -/
theorem readValue?_text_append : ∀ (v : Json), v.IsWritable → ∀ (fuel : Nat) (y : Text),
    2 * v.text.length < fuel → Closes y → readValue? fuel (v.text ++ y) = some (v.reread, y)
  | .null, _, fuel + 1, y, _, _ => by
    simp only [reread]
    rfl
  | .bool true, _, fuel + 1, y, _, _ => by
    simp only [reread]
    rfl
  | .bool false, _, fuel + 1, y, _, _ => by
    simp only [reread]
    rfl
  | .number t, h, fuel + 1, y, _, hy => by
    rw [IsWritable] at h
    simp only [text, readValue?_of_isNumeral h fuel hy, reread]
  | .string ls, h, fuel + 1, y, _, _ => by
    rw [IsWritable] at h
    have htext : (string ls).text ++ y = '"' :: (ls.flatMap JsonLetter.text ++ '"' :: y) := by
      simp only [text, quoted, List.append_assoc, List.cons_append, List.nil_append]
    rw [htext, readValue?, skipBlanks_cons (by decide)]
    simp only [JsonLetter.readAll?_flatMap_text_append h, Option.map_some, reread]
  | .array [], _, fuel + 1, y, _, _ => by
    rw [reread]
    rfl
  | .array (item :: items), h, fuel + 1, y, hf, _ => by
    rw [IsWritable] at h
    have hitems := readItems?_itemsText_append (item :: items) (by simp) h fuel y
      (by simp only [text, List.length_append, List.length_singleton] at hf; omega)
    rw [readValue?_array_cons (h item (by simp)), hitems, reread]
    rfl
  | .object [], _, fuel + 1, y, _, _ => by
    rw [reread]
    rfl
  | .object (m :: members), h, fuel + 1, y, hf, _ => by
    rw [IsWritable] at h
    have hmembers := readMembers?_membersText_append (m :: members) (by simp) h fuel y
      (by simp only [text, List.length_append, List.length_singleton] at hf; omega)
    rw [readValue?_object_cons, hmembers, reread]
    rfl

/-- The items of an array are read up to its end. -/
theorem readItems?_itemsText_append : ∀ (items : List Json), items ≠ [] →
    (∀ item ∈ items, item.IsWritable) → ∀ (fuel : Nat) (y : Text),
    2 * (itemsText items).length + 1 < fuel →
      readItems? fuel (itemsText items ++ ']' :: y) = some (items.map reread, y)
  | [], hne, _, _, _, _ => absurd rfl hne
  | [item], _, h, fuel + 1, y, hf => by
    have hitem := readValue?_text_append item (h item (by simp)) fuel (']' :: y)
      (by rw [itemsText] at hf; omega) (by simp [Closes])
    rw [itemsText, readItems?, hitem]
    rfl
  | item :: next :: items, _, h, fuel + 1, y, hf => by
    have htext : itemsText (item :: next :: items) ++ ']' :: y =
        item.text ++ ',' :: (itemsText (next :: items) ++ ']' :: y) := by
      simp only [itemsText, List.append_assoc, List.cons_append, List.nil_append]
    have hlength : (itemsText (item :: next :: items)).length =
        item.text.length + 1 + (itemsText (next :: items)).length := by
      simp only [itemsText, List.length_append, List.length_singleton]
    have hitem := readValue?_text_append item (h item (by simp)) fuel
      (',' :: (itemsText (next :: items) ++ ']' :: y)) (by omega) (by simp [Closes])
    have hitems := readItems?_itemsText_append (next :: items) (by simp)
      (List.forall_mem_cons.mp h).2 fuel y (by omega)
    rw [htext, readItems?, hitem]
    simp only [skipBlanks_cons (show isBlank ',' = false by decide), hitems]
    rfl

/-- The members of an object are read up to its end. -/
theorem readMembers?_membersText_append : ∀ (members : List (List JsonLetter × Json)),
    members ≠ [] → (∀ m ∈ members, (∀ l ∈ m.1, l.IsWritable) ∧ m.2.IsWritable) →
    ∀ (fuel : Nat) (y : Text), 2 * (membersText members).length + 1 < fuel →
      readMembers? fuel (membersText members ++ '\x7d' :: y) =
        some (members.map fun m ↦ (m.1.map JsonLetter.reread, m.2.reread), y)
  | [], hne, _, _, _, _ => absurd rfl hne
  | [(key, value)], _, h, fuel + 1, y, hf => by
    obtain ⟨hkey, hvalue⟩ := h (key, value) (by simp)
    have hlength : value.text.length ≤ (membersText [(key, value)]).length := by
      simp only [membersText, List.length_append]
      omega
    have hvalue := readValue?_text_append value hvalue fuel ('\x7d' :: y) (by omega)
      (by simp [Closes])
    rw [membersText, readMembers?, List.append_assoc, readKey?_quoted_append hkey]
    simp only [hvalue]
    rfl
  | (key, value) :: next :: members, _, h, fuel + 1, y, hf => by
    obtain ⟨⟨hkey, hvalue⟩, hmembers⟩ := List.forall_mem_cons.mp h
    have htext : membersText ((key, value) :: next :: members) ++ '\x7d' :: y =
        quoted key ++ [':'] ++
          (value.text ++ ',' :: (membersText (next :: members) ++ '\x7d' :: y)) := by
      simp only [membersText, List.append_assoc, List.cons_append, List.nil_append]
    have hlength : value.text.length + 1 + (membersText (next :: members)).length ≤
        (membersText ((key, value) :: next :: members)).length := by
      simp only [membersText, List.length_append, List.length_singleton]
      omega
    have hvalue := readValue?_text_append value hvalue fuel
      (',' :: (membersText (next :: members) ++ '\x7d' :: y)) (by omega) (by simp [Closes])
    have hmembers := readMembers?_membersText_append (next :: members) (by simp) hmembers fuel y
      (by omega)
    rw [htext, readMembers?, readKey?_quoted_append hkey]
    simp only [hvalue, skipBlanks_cons (show isBlank ',' = false by decide), hmembers]
    rfl

end

/-- A text that was written holds the value that it was written for, up to the letters that are
written by their numbers. -/
theorem ofText?_text {v : Json} (h : v.IsWritable) : ofText? v.text = some v.reread := by
  have hread := readValue?_text_append v h (2 * v.text.length + 2) [] (by omega) (by simp [Closes])
  rw [List.append_nil] at hread
  rw [ofText?, hread]
  rfl

example : ofText? (array [.null, ofText ['"', '\x01']]).text =
    some (.array [.null, .string [.char '"', .unit 1]]) := by rfl

end Json

end QueryNames
