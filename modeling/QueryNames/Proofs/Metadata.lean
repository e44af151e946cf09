import QueryNames.Json.Metadata
import QueryNames.Proofs.JsonText
import QueryNames.Proofs.Resolution

/-!
# Stored metadata is read back

A schema, a list of properties and a dialect are read back as they were stored, whatever characters
their names have; what is stored is checked only afterwards. So a stored schema loads as itself,
and a list of properties or a dialect loads with the result of its own check.
-/

namespace QueryNames

namespace Json

/-- A text can be written. -/
theorem isWritable_ofText (t : Text) : (ofText t).IsWritable := by
  rw [ofText, IsWritable]
  exact JsonLetter.isWritable_of_mem_ofText

/-- A text is read back. -/
theorem toText?_reread_ofText (t : Text) : (ofText t).reread.toText? = some t := by
  rw [ofText, reread, toText?, JsonLetter.toText?_map_reread, JsonLetter.toText?_ofText]

/-- An array can be written if its items can. -/
theorem isWritable_array_map {α : Type} {write : α → Json} (h : ∀ a, (write a).IsWritable)
    (l : List α) : (array (l.map write)).IsWritable := by
  rw [IsWritable]
  exact List.forall_mem_map.mpr fun a _ ↦ h a

/-- A list is read back if every entry is. -/
theorem mapM_reread_map {α : Type} {write : α → Json} {read : Json → Option α}
    (h : ∀ a, read (write a).reread = some a) (l : List α) :
    ((l.map write).map reread).mapM read = some l := by
  have hpure : read ∘ reread ∘ write = pure := funext h
  rw [List.map_map, List.mapM_map, hpure, List.mapM_pure, List.map_id']
  rfl

/-- A record can be written if its values can. -/
theorem isWritable_record {members : List (Text × Json)} (h : ∀ m ∈ members, m.2.IsWritable) :
    (record members).IsWritable := by
  rw [record, IsWritable]
  exact List.forall_mem_map.mpr fun m hm ↦ ⟨JsonLetter.isWritable_of_mem_ofText, h m hm⟩

/-- A record is read back as an object with its keys and values. -/
theorem exists_reread_record (members : List (Text × Json)) :
    ∃ ms, (record members).reread = .object ms ∧
      (object ms).toMembers? = some (members.map fun m ↦ (m.1, m.2.reread)) := by
  refine ⟨_, by rw [record, reread], ?_⟩
  rw [toMembers?, List.map_map, List.mapM_map]
  have hread : (fun m : List JsonLetter × Json ↦ (JsonLetter.toText? m.1).map (·, m.2)) ∘
      ((fun m : List JsonLetter × Json ↦ (m.1.map JsonLetter.reread, m.2.reread)) ∘
        fun m : Text × Json ↦ (JsonLetter.ofText m.1, m.2)) =
      fun m ↦ pure (m.1, m.2.reread) := by
    funext m
    simp only [Function.comp_apply, JsonLetter.toText?_map_reread, JsonLetter.toText?_ofText]
    rfl
  rw [hread, List.mapM_pure]
  rfl

/-- The label of an entry of a fixed list is read back if no other entry has it. -/
theorem choice?_reread_label {α : Type} {label : α → String} {table : List α} {a : α}
    (ha : a ∈ table) (hinj : ∀ b ∈ table, label b = label a → b = a) :
    choice? label table (ofText (label a).toList).reread = some a := by
  have htext := toText?_reread_ofText (label a).toList
  have hchoice : choice? label table (ofText (label a).toList).reread =
      table.find? fun b ↦ (label b).toList = (label a).toList := by
    simp only [ofText, reread] at htext ⊢
    simp only [choice?, htext, Option.bind_some]
  rw [hchoice]
  cases hb : table.find? fun b ↦ (label b).toList = (label a).toList with
  | none => exact absurd (decide_eq_true rfl) (List.find?_eq_none.mp hb a ha)
  | some b =>
    have hlabel : label b = label a := String.toList_inj.mp (by simpa using List.find?_some hb)
    rw [hinj b (List.mem_of_find?_eq_some hb) hlabel]

/-- A field has the value that its only member gives it. -/
theorem field?_of_mem {members : List (Text × Json)} (hnodup : (members.map Prod.fst).Nodup)
    {name : Text} {value : Json} (h : (name, value) ∈ members) :
    field? name members = some (some value) := by
  have hfilter : members.filter (·.1 = name) = [(name, value)] := by
    induction members with
    | nil => cases h
    | cons m ms ih =>
      obtain ⟨hm, hms⟩ := List.nodup_cons.mp hnodup
      rcases List.mem_cons.mp h with rfl | h
      · have hothers : ms.filter (·.1 = name) = [] := by
          refine List.filter_eq_nil_iff.mpr fun n hn he ↦ hm ?_
          exact List.mem_map.mpr ⟨n, hn, of_decide_eq_true he⟩
        rw [List.filter_cons_of_pos (by simp), hothers]
      · have hne : ¬m.1 = name := fun he ↦ hm (List.mem_map.mpr ⟨_, h, he.symm⟩)
        rw [List.filter_cons_of_neg (by simpa using hne), ih hms h]
  rw [field?, hfilter]

end Json

namespace Property

/-- A property can be written. -/
theorem isWritable_toJson (p : Property) : p.toJson.IsWritable := by
  refine Json.isWritable_record ?_
  simp [Json.isWritable_ofText]

/-- A property is read back. -/
theorem ofJson?_reread_toJson (p : Property) : ofJson? p.toJson.reread = some p := by
  obtain ⟨ms, hobject, hmembers⟩ : ∃ ms, p.toJson.reread = .object ms ∧
      (Json.object ms).toMembers? = some [_, _] := Json.exists_reread_record _
  have hkeys : ∀ n c : Json, ([("name".toList, n), ("category".toList, c)].map Prod.fst).Nodup :=
    fun _ _ ↦ show ["name".toList, "category".toList].Nodup by decide
  have hname := Json.toText?_reread_ofText p.name
  have hcategory : Json.choice? Category.label Category.all _ = some p.category :=
    Json.choice?_reread_label (Category.mem_all p.category) (by cases p.category <;> decide)
  rw [hobject]
  simp only [ofJson?, hmembers, Option.bind_eq_bind, Option.bind_some]
  rw [Json.field?_of_mem (hkeys _ _) (.head _), Json.field?_of_mem (hkeys _ _) (.tail _ (.head _))]
  show ofJson?.build _ _ = some p
  simp only [ofJson?.build, hname, hcategory]
  rfl

end Property

namespace Dialect

/-- A dialect can be written. -/
theorem isWritable_toJson (d : Dialect) : d.toJson.IsWritable := by
  refine Json.isWritable_record ?_
  simp [Json.isWritable_ofText, Json.isWritable_array_map]

/-- A dialect is read back. -/
theorem ofJson?_reread_toJson (d : Dialect) : ofJson? d.toJson.reread = some d := by
  obtain ⟨ms, hobject, hmembers⟩ : ∃ ms, d.toJson.reread = .object ms ∧
      (Json.object ms).toMembers? = some [_, _] := Json.exists_reread_record _
  have hkeys : ∀ v p : Json,
      ([("prefixes".toList, v), ("missing_direction".toList, p)].map Prod.fst).Nodup :=
    fun _ _ ↦ show ["prefixes".toList, "missing_direction".toList].Nodup by decide
  have hverbs := Json.mapM_reread_map Json.toText?_reread_ofText d.verbs
  have hpolicy :
      Json.choice? DirectionPolicy.label DirectionPolicy.all _ = some d.missingDirection :=
    Json.choice?_reread_label (by cases d.missingDirection <;> decide)
      (by cases d.missingDirection <;> decide)
  rw [hobject]
  simp only [ofJson?, hmembers, Option.bind_eq_bind, Option.bind_some]
  rw [Json.field?_of_mem (hkeys _ _) (.head _), Json.field?_of_mem (hkeys _ _) (.tail _ (.head _))]
  show ofJson?.build (some _) (some _) = some d
  simp only [ofJson?.build, Json.reread, Json.toList?, Option.bind_some, hverbs, hpolicy]
  rfl

/-- A stored dialect is read back, whether or not a grammar has it. -/
theorem read?_text_toJson (d : Dialect) : read? d.toJson.text = some d := by
  rw [read?, Json.ofText?_text (isWritable_toJson d)]
  exact ofJson?_reread_toJson d

/-- A text loads as a dialect exactly when it holds that dialect and a grammar has it. -/
theorem load?_eq_ok_iff {t : Text} {d : Dialect} :
    load? t = .ok d ↔ read? t = some d ∧ d.fault? = none := by
  rw [load?]
  cases hread : read? t with
  | none => simp
  | some e =>
    cases hfault : e.fault? with
    | none => grind
    | some fault => grind

end Dialect

namespace Schema

/-- A list of properties can be written. -/
theorem isWritable_listToJson (ps : List Property) : (listToJson ps).IsWritable :=
  Json.isWritable_array_map Property.isWritable_toJson ps

/-- A stored list of properties is read back in its order. -/
theorem listOfJson?_text_listToJson (ps : List Property) :
    (Json.ofText? (listToJson ps).text).bind listOfJson? = some ps := by
  rw [Json.ofText?_text (isWritable_listToJson ps), listToJson, Json.reread]
  exact Json.mapM_reread_map Property.ofJson?_reread_toJson ps

/-- What loads from a stored list of properties is the schema of the list or its first fault. -/
theorem load?_text_listToJson (ps : List Property) :
    load? (listToJson ps).text = (ofList? ps).mapError .schema := by
  rw [load?, listOfJson?_text_listToJson]

/-- A text loads as a schema exactly when it holds the properties of the schema. -/
theorem load?_eq_ok_iff {t : Text} {s : Schema} :
    load? t = .ok s ↔ (Json.ofText? t).bind listOfJson? = some s.properties := by
  rw [load?]
  cases hread : (Json.ofText? t).bind listOfJson? with
  | none => simp
  | some ps =>
    have hlist : ofList? ps = .ok s ↔ some ps = some s.properties := by
      rw [Option.some_inj, ofList?_eq_ok_iff, eq_comm]
    show (ofList? ps).mapError QueryNames.Fault.schema = .ok s ↔ _
    rw [← hlist]
    cases ofList? ps <;> simp [Except.mapError]

end Schema

/-- What is stored is read back. A schema loads as itself, with its properties in their order; a
dialect and a list of properties load with what their own checks find, the first fault included. A
text loads only if what it holds passes the check. -/
theorem load?_text_exact :
    (∀ s : Schema, Schema.load? s.toJson.text = .ok s) ∧
      (∀ d : Dialect, Dialect.load? d.toJson.text =
        match d.fault? with
        | none => .ok d
        | some fault => .error (.dialect fault)) ∧
      (∀ ps : List Property,
        Schema.load? (Schema.listToJson ps).text = (Schema.ofList? ps).mapError .schema) ∧
      (∀ fault : Dialect.Fault, (Fault.dialect fault).kind = .invalidArgument) ∧
      (∀ (t : Text) (d : Dialect), Dialect.load? t = .ok d ↔ Dialect.read? t = some d ∧
        d.verbs ≠ [] ∧ (∀ v ∈ d.verbs, Dialect.isVerb v) ∧ d.verbs.Nodup) ∧
      (∀ (t : Text) (s : Schema), Schema.load? t = .ok s ↔
        (Json.ofText? t).bind Schema.listOfJson? = some s.properties) := by
  refine ⟨fun s ↦ ?_, fun d ↦ ?_, Schema.load?_text_listToJson, fun _ ↦ rfl, fun t d ↦ ?_,
    fun _ _ ↦ Schema.load?_eq_ok_iff⟩
  · exact Schema.load?_eq_ok_iff.mpr (Schema.listOfJson?_text_listToJson s.properties)
  · cases hfault : d.fault? <;> simp only [Dialect.load?, Dialect.read?_text_toJson, hfault]
  · rw [Dialect.load?_eq_ok_iff, Dialect.fault?_eq_none_iff]

end QueryNames
