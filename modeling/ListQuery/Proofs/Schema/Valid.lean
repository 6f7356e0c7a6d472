/-
Which declarations make a schema, said without the checks: names are distinct and none is taken from
the well-known messages, every type that is named is declared, and every map has a key and a value
that a map can have (`SchemaSpec.Valid`). In a schema that has been built, lookups lead on as far as
one likes (`Schema.ReachesMessage`, `Schema.ReachesField`): messages refer to each other by name, so
the one pass over the declarations answers for chains of any length. Main statement:
`Schema.build_iff_valid`.
-/
import Mathlib.Data.List.Nodup
import ListQuery.Proofs.Schema.Checked

namespace ListQuery

/-- The field at a place among the fields; the place stands for a number that is not given. -/
def Field.numberedAt (f : Field) (place : Nat) : Field :=
  { f with number := if f.number = 0 then place else f.number }

namespace SchemaSpec

/-- The messages that a field can name. -/
def declared (spec : SchemaSpec) : List Message := Schema.wellKnownMessages ++ spec.messages

/-- A field that holds messages names a message, and one that holds values of an enum an enum. -/
structure NamesType (spec : SchemaSpec) (f : Field) : Prop where
  message : f.kind.isMessage = true →
    ∃ t, f.typeName = some t ∧ t ∈ spec.declared.map Message.fullName
  enum : f.kind = .enum → ∃ t, f.typeName = some t ∧ t ∈ spec.enums.map EnumType.fullName

/-- The key and value of a map are singular, keys are of a kind that keys can have, and the value
has its type. -/
structure IsEntry (spec : SchemaSpec) (key value : Field) : Prop where
  singular : key.cardinality = .singular ∧ value.cardinality = .singular
  keyKind : key.kind.isMapKey = true
  valueType : spec.NamesType value

/-- A map has a key and a value, any other field has its type. -/
structure Fits (spec : SchemaSpec) (f : Field) : Prop where
  plain : f.isMap = false → spec.NamesType f
  map : f.isMap = true →
    ∃ key value, f.mapKey = some key ∧ f.mapValue = some value ∧ spec.IsEntry key value

structure Valid (spec : SchemaSpec) : Prop where
  messageNames : (spec.messages.map Message.fullName).Nodup
  notWellKnown : ∀ m ∈ spec.messages, ∀ w : WellKnown, m.fullName ≠ w.fullName
  enumNames : (spec.enums.map EnumType.fullName).Nodup
  fieldNames : ∀ m ∈ spec.messages, (m.fields.map Field.name).Nodup
  fields : ∀ m ∈ spec.messages, ∀ f ∈ m.fields, spec.Fits f

/-- The schema of declarations that fit together. -/
def schema (spec : SchemaSpec) : Schema := ⟨spec.declared.map Schema.numbered, spec.enums⟩

end SchemaSpec

namespace Schema

open SchemaSpec (NamesType IsEntry Fits Valid)

variable {spec : SchemaSpec} {f : Field}

theorem isSome_message?_iff {t : String} :
    (spec.schema.message? t).isSome = true ↔ t ∈ spec.declared.map Message.fullName := by
  simp [message?, SchemaSpec.schema, numbered]

theorem containsEnum_iff {t : String} :
    spec.schema.containsEnum t = true ↔ t ∈ spec.enums.map EnumType.fullName := by
  simp [containsEnum, enum?, SchemaSpec.schema]

theorem namesType_iff : spec.NamesType f ↔
    (f.kind.isMessage = true →
      ∃ t, f.typeName = some t ∧ (spec.schema.message? t).isSome = true) ∧
    (f.kind = .enum → ∃ t, f.typeName = some t ∧ spec.schema.containsEnum t = true) := by
  simp only [isSome_message?_iff, containsEnum_iff]
  exact ⟨fun h => ⟨h.message, h.enum⟩, fun h => ⟨h.1, h.2⟩⟩

theorem checkType_eq_ok_iff {message : String} :
    spec.schema.checkType message f = .ok () ↔ spec.NamesType f := by
  rw [namesType_iff]
  unfold checkType
  by_cases henum : f.kind = .enum
  · cases f.typeName <;> simp [henum, FieldKind.isMessage]
  · by_cases hmessage : f.kind.isMessage = true
    · cases f.typeName <;> simp [henum, hmessage, Option.isSome_iff_ne_none]
    · simp [hmessage, henum]

theorem isEntry_iff {key value : Field} : spec.IsEntry key value ↔
    key.kind.isMapKey = true ∧
      (key.cardinality = .singular ∧ value.cardinality = .singular) ∧ spec.NamesType value :=
  ⟨fun h => ⟨h.keyKind, h.singular, h.valueType⟩, fun h => ⟨h.2.1, h.1, h.2.2⟩⟩

theorem fits_iff : spec.Fits f ↔
    if f.isMap then
      ∃ key value, f.mapKey = some key ∧ f.mapValue = some value ∧ spec.IsEntry key value
    else spec.NamesType f := by
  cases hmap : f.isMap with
  | false => exact ⟨fun h => h.plain hmap, fun h => ⟨fun _ => h, by simp [hmap]⟩⟩
  | true => exact ⟨fun h => h.map hmap, fun h => ⟨by simp [hmap], fun _ => h⟩⟩

theorem checkField_eq_ok_iff {message : String} :
    spec.schema.checkField message f = .ok () ↔ spec.Fits f := by
  rw [fits_iff]
  unfold checkField
  split
  · split
    · rename_i hkey
      simp [hkey]
    · rename_i hvalue
      simp [hvalue]
    · rename_i key value hkey hvalue
      have hentry : (∃ k v, f.mapKey = some k ∧ f.mapValue = some v ∧ spec.IsEntry k v) ↔
          spec.IsEntry key value := by
        simp [hkey, hvalue]
      rw [hentry, isEntry_iff]
      split
      · rename_i hk
        simp only [Bool.not_eq_true'] at hk
        simp [hk]
      · rename_i hk
        simp only [Bool.not_eq_true', Bool.not_eq_false] at hk
        split
        · rename_i hcard
          rw [ne_eq, ne_eq, ← Decidable.not_and_iff_not_or_not] at hcard
          simp [hcard]
        · rename_i hcard
          simp only [not_or, ne_eq, Decidable.not_not] at hcard
          simp [hk, hcard, checkType_eq_ok_iff]
  · exact checkType_eq_ok_iff

theorem numberFields_eq (fs : List Field) :
    numberFields fs = fs.mapIdx fun i f => f.numberedAt (placeNumber i).toNat := by
  unfold numberFields Field.numberedAt
  congr
  funext i f
  cases f
  split <;> rfl

/-- The number of a field does not matter to the checks. -/
theorem fits_numberedAt {place : Nat} : spec.Fits (f.numberedAt place) ↔ spec.Fits f := by
  rw [← @checkField_eq_ok_iff _ _ "", ← @checkField_eq_ok_iff _ _ ""]
  rfl

theorem fits_numbered {m : Message} :
    (∀ f ∈ (numbered m).fields, spec.Fits f) ↔ ∀ f ∈ m.fields, spec.Fits f := by
  simp only [numbered, numberFields_eq, List.mem_mapIdx]
  constructor
  · intro h f hf
    obtain ⟨i, hi, rfl⟩ := List.mem_iff_getElem.1 hf
    exact fits_numberedAt.1 (h _ ⟨i, hi, rfl⟩)
  · rintro h _ ⟨i, hi, rfl⟩
    exact fits_numberedAt.2 (h _ (List.getElem_mem hi))

theorem nodup_declared :
    (spec.declared.map Message.fullName).Nodup ↔
      (spec.messages.map Message.fullName).Nodup ∧
        ∀ m ∈ spec.messages, ∀ w : WellKnown, m.fullName ≠ w.fullName := by
  have hnames : wellKnownMessages.map Message.fullName =
      [.timestamp, .duration, .value, .struct].map WellKnown.fullName := rfl
  have hnodup : (wellKnownMessages.map Message.fullName).Nodup := by decide
  have hmem (w : WellKnown) : w.fullName ∈ wellKnownMessages.map Message.fullName := by
    rw [hnames]
    cases w <;> simp
  rw [SchemaSpec.declared, List.map_append, List.nodup_append]
  constructor
  · rintro ⟨-, hmessages, hapart⟩
    exact ⟨hmessages, fun m hm w h => hapart _ (hmem w) _ (List.mem_map_of_mem hm) h.symm⟩
  · rintro ⟨hmessages, hapart⟩
    refine ⟨hnodup, hmessages, fun a ha b hb hab => ?_⟩
    rw [hnames] at ha
    obtain ⟨w, -, rfl⟩ := List.mem_map.1 ha
    obtain ⟨m, hm, rfl⟩ := List.mem_map.1 hb
    exact hapart m hm w hab.symm

/-- The well-known messages fit together with any declarations. -/
theorem wellKnown_fits : ∀ m ∈ wellKnownMessages,
    (m.fields.map Field.name).Nodup ∧ ∀ f ∈ m.fields, spec.Fits f := by
  have hscalar {f : Field} (h : f.isMap = false ∧ f.kind.isMessage = false ∧ f.kind ≠ .enum) :
      spec.Fits f := by
    rw [fits_iff, h.1]
    exact ⟨by simp [h.2.1], fun henum => absurd henum h.2.2⟩
  have hinstant (w : WellKnown) : ∀ f ∈ (instant w).fields, spec.Fits f := by
    simp only [instant, List.forall_mem_cons]
    exact ⟨hscalar (by decide), hscalar (by decide), by simp⟩
  have hvalue : spec.NamesType { Field.ofMessage "value" WellKnown.value.fullName with
      number := 2 } :=
    ⟨fun _ => ⟨_, rfl, by simp [SchemaSpec.declared, wellKnownMessages]⟩, fun h => by cases h⟩
  simp only [wellKnownMessages, List.forall_mem_cons]
  refine ⟨⟨by decide, hinstant _⟩, ⟨by decide, hinstant _⟩, ⟨by decide, by simp⟩,
    ⟨by decide, ?_, by simp⟩, by simp⟩
  rw [fits_iff]
  exact ⟨_, _, rfl, rfl, ⟨rfl, rfl⟩, rfl, hvalue⟩

theorem build_eq_ok_iff_valid {s : Schema} :
    build spec = .ok s ↔ spec.Valid ∧ s = spec.schema := by
  have hfits : (∀ m ∈ spec.schema.messages, ∀ f ∈ m.fields,
      spec.schema.checkField m.fullName f = .ok ()) ↔
        ∀ m ∈ spec.messages, ∀ f ∈ m.fields, spec.Fits f := by
    simp only [checkField_eq_ok_iff]
    rw [SchemaSpec.schema, List.forall_mem_map]
    simp only [fits_numbered]
    rw [SchemaSpec.declared, List.forall_mem_append]
    exact and_iff_right fun m hm => (wellKnown_fits m hm).2
  have hnames : (∀ m ∈ spec.declared, (m.fields.map Field.name).Nodup) ↔
      ∀ m ∈ spec.messages, (m.fields.map Field.name).Nodup := by
    rw [SchemaSpec.declared, List.forall_mem_append]
    exact and_iff_right fun m hm => (@wellKnown_fits spec m hm).1
  rw [build_eq_ok_iff]
  change _ ∧ (∀ m ∈ spec.declared, _) ∧ (spec.declared.map _).Nodup ∧ s = spec.schema ∧ _ ↔ _
  rw [hnames, nodup_declared]
  constructor
  · rintro ⟨henums, hfields, ⟨hmessages, hapart⟩, rfl, hchecks⟩
    exact ⟨⟨hmessages, hapart, henums, hfields, hfits.1 hchecks⟩, rfl⟩
  · rintro ⟨h, rfl⟩
    exact ⟨h.enumNames, h.fieldNames, ⟨h.messageNames, h.notWellKnown⟩, rfl, hfits.2 h.fields⟩

end Schema

/-! ## Lookups -/

/-- A message as declared, its fields in order and each with its number. -/
structure Message.Declares (d m : Message) : Prop where
  fullName : m.fullName = d.fullName
  length : m.fields.length = d.fields.length
  /-- The number for a place is the place from one on, as far as 32 bits go. -/
  fields : ∀ (i : Nat) (f : Field), d.fields[i]? = some f →
    ∃ place : UInt32, place = UInt32.ofNat i + 1 ∧
      (i + 1 < UInt32.size → place.toNat = i + 1) ∧
      m.fields[i]? = some (f.numberedAt place.toNat)

/-- A message whose fields are found by their names, one for each name. -/
structure Message.FindsFields (m : Message) : Prop where
  distinct : (m.fields.map Field.name).Nodup
  field?_iff : ∀ name f, m.field? name = some f ↔ f ∈ m.fields ∧ f.name = name

namespace Schema

mutual

/-- A message that a chain of lookups leads to. -/
inductive ReachesMessage (s : Schema) : Message → Prop where
  | named {t : String} {m : Message} (h : s.message? t = some m) : ReachesMessage s m
  | ofField {f : Field} {m : Message} (via : ReachesField s f) (h : s.messageOf? f = some m) :
    ReachesMessage s m

/-- A field that a chain of lookups leads to. -/
inductive ReachesField (s : Schema) : Field → Prop where
  | listed {m : Message} {f : Field} (via : ReachesMessage s m) (h : f ∈ m.fields) :
    ReachesField s f
  | named {m : Message} {name : String} {f : Field} (via : ReachesMessage s m)
    (h : m.field? name = some f) : ReachesField s f
  | mapKey {f key : Field} (via : ReachesField s f) (map : f.isMap = true)
    (h : f.mapKey = some key) : ReachesField s key
  | mapValue {f value : Field} (via : ReachesField s f) (map : f.isMap = true)
    (h : f.mapValue = some value) : ReachesField s value

end

/-- A field of messages leads to the message that it names, and a map to its key and value. -/
structure LeadsOn (s : Schema) (f : Field) : Prop where
  message : f.isMap = false → f.kind.isMessage = true →
    ∃ t m, f.typeName = some t ∧ s.messageOf? f = some m ∧ m.fullName = t
  map : f.isMap = true → ∃ key value, f.mapKey = some key ∧ f.mapValue = some value

variable {s : Schema} {spec : SchemaSpec}

mutual

theorem ReachesMessage.mem : ∀ {m : Message}, s.ReachesMessage m → m ∈ s.messages
  | _, .named h => mem_of_message? h
  | _, .ofField _ h => mem_of_messageOf? h

/-- By induction on the chain: only the value of a map is no field of a message, and the check of a
map has looked at its value. -/
theorem ReachesField.sound (hs : s.Checked) : ∀ {f : Field}, s.ReachesField f → s.Sound f
  | f, .listed (m := m) via h => hs.sound m via.mem f h
  | f, .named (m := m) via h => hs.sound m via.mem f (Message.mem_of_field? h)
  | _, .mapKey via map h => (via.sound hs).of_mapKey map h
  | _, .mapValue via map h => (via.sound hs).of_mapValue map h

end

theorem Sound.leadsOn {f : Field} (h : s.Sound f) : s.LeadsOn f where
  message hmap hkind := by
    obtain ⟨m, hm⟩ := Option.ne_none_iff_exists'.1 (h.message hmap hkind)
    obtain ⟨-, -, t, ht, hname⟩ := exists_of_messageOf? hm
    exact ⟨t, m, ht, hm, fullName_of_message? hname⟩
  map hmap := by
    obtain ⟨key, value, hkey, hvalue, -⟩ := h.map hmap
    exact ⟨key, value, hkey, hvalue⟩

theorem declares_numbered (d : Message) : d.Declares (numbered d) where
  fullName := rfl
  length := by simp [numbered, numberFields]
  fields i f h :=
    ⟨placeNumber i, rfl, placeNumber_eq, by simp [numbered, numberFields_eq, h]⟩

theorem names_numbered (d : Message) :
    (numbered d).fields.map Field.name = d.fields.map Field.name := by
  simp only [numbered, numberFields_eq]
  exact List.ext_getElem (by simp) fun i _ _ => by simp [Field.numberedAt]

end Schema

theorem Message.findsFields {m : Message} (h : (m.fields.map Field.name).Nodup) :
    m.FindsFields where
  distinct := h
  field?_iff name f := by
    refine ⟨fun hf => ⟨mem_of_field? hf, name_of_field? hf⟩, ?_⟩
    rintro ⟨hf, rfl⟩
    obtain ⟨g, hg⟩ : ∃ g, m.field? f.name = some g := by
      rw [← Option.isSome_iff_exists, field?, List.find?_isSome]
      exact ⟨f, hf, by simp⟩
    -- the field that is found has the same name, and no two fields have
    rw [hg, List.inj_on_of_nodup_map h (mem_of_field? hg) hf (name_of_field? hg)]

namespace Schema

variable {s : Schema} {spec : SchemaSpec}

theorem message?_declared (h : (spec.declared.map Message.fullName).Nodup) {d : Message}
    (hd : d ∈ spec.declared) : spec.schema.message? d.fullName = some (numbered d) := by
  obtain ⟨m, hm⟩ := Option.isSome_iff_exists.1 (isSome_message?_iff.2 (List.mem_map_of_mem hd))
  obtain ⟨d', hd', rfl⟩ := List.mem_map.1 (mem_of_message? hm)
  have hname : (numbered d').fullName = d.fullName := fullName_of_message? hm
  rw [hm, List.inj_on_of_nodup_map h hd' hd hname]

/-- Building a schema succeeds exactly when the declarations fit together. What is built holds each
declared message under its name, and whatever a chain of lookups leads to is a declared message,
found with all of its fields, or a field that leads on. -/
theorem build_iff_valid (spec : SchemaSpec) :
    ((∃ s, build spec = .ok s) ↔ spec.Valid) ∧
      ∀ s, build spec = .ok s →
        (∀ d ∈ spec.declared, ∃ m, s.message? d.fullName = some m ∧ d.Declares m) ∧
        (∀ m, s.ReachesMessage m → m.FindsFields ∧ ∃ d ∈ spec.declared, d.Declares m) ∧
        ∀ f, s.ReachesField f → s.LeadsOn f := by
  refine ⟨⟨fun ⟨s, h⟩ => (build_eq_ok_iff_valid.1 h).1,
    fun h => ⟨_, build_eq_ok_iff_valid.2 ⟨h, rfl⟩⟩⟩, fun s h => ?_⟩
  have hchecked := build_checked h
  obtain ⟨-, hfields, hnames, -, -⟩ := build_eq_ok_iff.1 h
  obtain ⟨-, rfl⟩ := build_eq_ok_iff_valid.1 h
  refine ⟨fun d hd => ⟨_, message?_declared hnames hd, declares_numbered d⟩, fun m hm => ?_,
    fun f hf => (hf.sound hchecked).leadsOn⟩
  obtain ⟨d, hd, rfl⟩ := List.mem_map.1 hm.mem
  have hnumbered : ((numbered d).fields.map Field.name).Nodup := by
    rw [names_numbered]
    exact hfields d hd
  exact ⟨Message.findsFields hnumbered, d, hd, declares_numbered d⟩

/-- A message that holds itself, directly and as values of a map, and an enum. -/
def treeSpec : SchemaSpec where
  messages := [⟨"Tree", [
    .ofMessage "parent" "Tree",
    { Field.ofEnum "color" "Color" with number := 7 },
    .ofMap "children" { name := "name", kind := .string } (.ofMessage "tree" "Tree"),
    .ofMessage "planted" WellKnown.timestamp.fullName]⟩]
  enums := [⟨"Color", [("GREEN", 0)]⟩]

theorem build_iff_valid_tree : treeSpec.Valid ∧ ∃ s tree children value,
    build treeSpec = .ok s ∧ s.message? "Tree" = some tree ∧
      tree.fields.map Field.number = [1, 7, 3, 4] ∧ tree.field? "children" = some children ∧
      children.isMap = true ∧ children.mapValue = some value ∧ s.messageOf? value = some tree ∧
      tree.FindsFields ∧ s.LeadsOn value := by
  have hbuild : build treeSpec = .ok treeSpec.schema := rfl
  obtain ⟨-, hmessages, hfields⟩ := (build_iff_valid treeSpec).2 _ hbuild
  have htree : treeSpec.schema.ReachesMessage _ := .named (t := "Tree") rfl
  have hchildren : treeSpec.schema.ReachesField _ :=
    .named htree (rfl : Message.field? _ "children" = _)
  exact ⟨(build_iff_valid treeSpec).1.1 ⟨_, hbuild⟩, _, _, _, _, hbuild, rfl, rfl, rfl, rfl, rfl,
    rfl, (hmessages _ htree).1, hfields _ (.mapValue hchildren rfl rfl)⟩

end Schema

end ListQuery
