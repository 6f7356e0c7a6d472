/-
What the checks of a schema promise: a field of a message type has its message, a map has a key and
a value of its own, and the well-known messages are the first of every schema.
-/
import ListQuery.Schema.Build

namespace ListQuery

namespace Schema

/-- A field that is no map, and whose message is there if it holds messages. -/
structure Plain (s : Schema) (f : Field) : Prop where
  isMap : f.isMap = false
  message : f.kind.isMessage = true → s.messageOf? f ≠ none

/-- A field with all that its kind and its cardinality call for. -/
structure Sound (s : Schema) (f : Field) : Prop where
  message : f.isMap = false → f.kind.isMessage = true → s.messageOf? f ≠ none
  map : f.isMap = true →
    ∃ key value, f.mapKey = some key ∧ f.mapValue = some value ∧ s.Plain key ∧ s.Plain value

/-- A schema whose fields are sound, and whose moments and durations count seconds and
nanoseconds. -/
structure Checked (s : Schema) : Prop where
  sound : ∀ m ∈ s.messages, ∀ f ∈ m.fields, s.Sound f
  instant : ∀ w, w = .timestamp ∨ w = .duration → ∀ t m, s.message? t = some m →
    m.wellKnown? = some w → ∀ name, name = "seconds" ∨ name = "nanos" → m.field? name ≠ none

variable {s : Schema} {f : Field} {m : Message}

theorem Plain.sound (h : s.Plain f) : s.Sound f where
  message _ := h.message
  map hmap := by
    rw [h.isMap] at hmap
    cases hmap

/-- A field that is no map and holds no messages. -/
theorem Plain.scalar (hmap : f.isMap = false) (hkind : f.kind.isMessage = false) : s.Plain f where
  isMap := hmap
  message h := by
    rw [hkind] at h
    cases h

theorem Sound.mapKey_ne_none (h : s.Sound f) (hmap : f.isMap = true) : f.mapKey ≠ none := by
  obtain ⟨key, _, hkey, -⟩ := h.map hmap
  rw [hkey]
  exact Option.some_ne_none key

theorem Sound.mapValue_ne_none (h : s.Sound f) (hmap : f.isMap = true) : f.mapValue ≠ none := by
  obtain ⟨_, value, -, hvalue, -⟩ := h.map hmap
  rw [hvalue]
  exact Option.some_ne_none value

theorem Sound.of_mapKey (h : s.Sound f) (hmap : f.isMap = true) {key : Field}
    (hkey : f.mapKey = some key) : s.Sound key := by
  obtain ⟨_, _, hk, -, hplain, -⟩ := h.map hmap
  cases hkey.symm.trans hk
  exact hplain.sound

theorem Sound.of_mapValue (h : s.Sound f) (hmap : f.isMap = true) {value : Field}
    (hvalue : f.mapValue = some value) : s.Sound value := by
  obtain ⟨_, _, -, hv, -, hplain⟩ := h.map hmap
  cases hvalue.symm.trans hv
  exact hplain.sound

theorem mem_of_message? {t : String} (h : s.message? t = some m) : m ∈ s.messages :=
  List.mem_of_find?_eq_some h

theorem fullName_of_message? {t : String} (h : s.message? t = some m) : m.fullName = t := by
  simpa only [beq_iff_eq] using List.find?_some h

theorem exists_of_messageOf? (h : s.messageOf? f = some m) :
    f.kind.isMessage = true ∧ f.isMap = false ∧
      ∃ t, f.typeName = some t ∧ s.message? t = some m := by
  simp only [messageOf?] at h
  split at h
  · rename_i hc
    simp only [Bool.and_eq_true, Bool.not_eq_true'] at hc
    obtain ⟨t, ht, hm⟩ := Option.bind_eq_some_iff.1 h
    exact ⟨hc.1, hc.2, t, ht, hm⟩
  · cases h

theorem mem_of_messageOf? (h : s.messageOf? f = some m) : m ∈ s.messages := by
  obtain ⟨-, -, t, -, ht⟩ := exists_of_messageOf? h
  exact mem_of_message? ht

theorem exists_of_wellKnownOf? {w : WellKnown} (h : s.wellKnownOf? f = some w) :
    ∃ m, s.messageOf? f = some m ∧ m.wellKnown? = some w :=
  Option.bind_eq_some_iff.1 h

end Schema

theorem Message.mem_of_field? {m : Message} {name : String} {f : Field}
    (h : m.field? name = some f) : f ∈ m.fields :=
  List.mem_of_find?_eq_some h

theorem Message.name_of_field? {m : Message} {name : String} {f : Field}
    (h : m.field? name = some f) : f.name = name := by
  simpa only [beq_iff_eq] using List.find?_some h

theorem WellKnown.fullName_of_ofFullName? {name : String} {w : WellKnown}
    (h : ofFullName? name = some w) : name = w.fullName := by
  have hw := List.find?_some h
  simp only [beq_iff_eq] at hw
  exact hw.symm

namespace Schema

variable {s : Schema} {f : Field} {m : Message}

/-! ## Checks -/

theorem checkType_ok {message : String} (hmap : f.isMap = false)
    (h : s.checkType message f = .ok ()) : s.Plain f where
  isMap := hmap
  message hkind := by
    have henum : f.kind ≠ .enum := by
      intro hk
      rw [hk] at hkind
      cases hkind
    simp only [checkType, hkind, Bool.true_or, if_true, if_neg henum] at h
    split at h
    · cases h
    · rename_i t ht
      split at h
      · rename_i hfound
        simp only [messageOf?, hkind, hmap, Bool.not_false, Bool.and_self, if_true, ht,
          Option.bind_some]
        exact Option.isSome_iff_ne_none.1 hfound
      · cases h

theorem not_isMessage_of_isMapKey {k : FieldKind} (h : k.isMapKey = true) :
    k.isMessage = false := by
  cases k <;> first | rfl | cases h

theorem not_isMap_of_singular (h : f.cardinality = .singular) : f.isMap = false := by
  simp [Field.isMap, h]

theorem checkField_ok {message : String} (h : s.checkField message f = .ok ()) : s.Sound f := by
  unfold checkField at h
  split at h
  · rename_i hmap
    split at h
    · cases h
    · cases h
    · rename_i key value hkey hvalue
      split at h
      · cases h
      · rename_i hk
        split at h
        · cases h
        · rename_i hcard
          simp only [Bool.not_eq_true, Bool.not_eq_false'] at hk
          simp only [not_or, Decidable.not_not] at hcard
          refine ⟨fun h' => ?_, fun _ => ⟨key, value, hkey, hvalue, ?_, ?_⟩⟩
          · rw [hmap] at h'
            cases h'
          · exact .scalar (not_isMap_of_singular hcard.1) (not_isMessage_of_isMapKey hk)
          · exact checkType_ok (not_isMap_of_singular hcard.2) h
  · rename_i hmap
    exact (checkType_ok (Bool.not_eq_true _ ▸ hmap) h).sound

theorem checkFields_eq_ok_iff {message : String} {fs : List Field} :
    s.checkFields message fs = .ok () ↔ ∀ f ∈ fs, s.checkField message f = .ok () := by
  induction fs with
  | nil => simp [checkFields]
  | cons g gs ih =>
    simp only [checkFields, List.forall_mem_cons]
    split
    · rename_i hg
      rw [ih, hg]
      exact (and_iff_right rfl).symm
    · rename_i e hg
      rw [hg]
      constructor
      · intro h
        cases h
      · intro h
        cases h.1

theorem checkAll_eq_ok_iff {ms : List Message} :
    s.checkAll ms = .ok () ↔
      ∀ m ∈ ms, ∀ f ∈ m.fields, s.checkField m.fullName f = .ok () := by
  induction ms with
  | nil => simp [checkAll]
  | cons n ns ih =>
    simp only [checkAll, List.forall_mem_cons]
    rw [← checkFields_eq_ok_iff]
    split
    · rename_i hn
      rw [ih, hn]
      exact (and_iff_right rfl).symm
    · rename_i e hn
      rw [hn]
      constructor
      · intro h
        cases h
      · intro h
        cases h.1

theorem firstRepeated?_eq_none_iff {seen ns : List String} :
    firstRepeated? seen ns = none ↔ ns.Nodup ∧ ∀ n ∈ ns, n ∉ seen := by
  induction ns generalizing seen with
  | nil => simp [firstRepeated?]
  | cons n ns ih =>
    simp only [firstRepeated?, List.contains_eq_mem, decide_eq_true_eq, List.nodup_cons,
      List.forall_mem_cons]
    split
    · rename_i hn
      simp [hn]
    · rename_i hn
      rw [ih]
      constructor
      · rintro ⟨hnodup, hseen⟩
        exact ⟨⟨fun hmem => hseen n hmem (by simp), hnodup⟩, hn,
          fun x hx hs => hseen x hx (List.mem_cons_of_mem n hs)⟩
      · rintro ⟨⟨hmem, hnodup⟩, -, hseen⟩
        refine ⟨hnodup, fun x hx => ?_⟩
        rw [List.mem_cons, not_or]
        exact ⟨fun h => hmem (h ▸ hx), hseen x hx⟩

/-- A message with its fields numbered. -/
def numbered (m : Message) : Message := { m with fields := numberFields m.fields }

/-- Messages pass when no name of a field comes twice in a message and no name of a message comes
twice at all. -/
theorem checkMessages_eq_ok_iff {seen : List String} {ms out : List Message} :
    checkMessages seen ms = .ok out ↔
      (∀ m ∈ ms, (m.fields.map Field.name).Nodup) ∧ (ms.map Message.fullName).Nodup ∧
        (∀ m ∈ ms, m.fullName ∉ seen) ∧ out = ms.map numbered := by
  induction ms generalizing seen out with
  | nil => simp [checkMessages, eq_comm]
  | cons m ms ih =>
    simp only [checkMessages, List.forall_mem_cons, List.map_cons, List.nodup_cons]
    split
    · rename_i field hfield
      have hrepeated : ¬ (m.fields.map Field.name).Nodup := fun h => by
        rw [firstRepeated?_eq_none_iff.2 ⟨h, fun _ _ => List.not_mem_nil⟩] at hfield
        cases hfield
      simp [hrepeated]
    · rename_i hfields
      have hnodup := (firstRepeated?_eq_none_iff.1 hfields).1
      simp only [List.contains_eq_mem, decide_eq_true_eq]
      split
      · rename_i hseen
        simp [hseen]
      · rename_i hseen
        -- behind `m` its name counts as seen, so no later message has it
        have hlater : (∀ n ∈ ms, n.fullName ∉ m.fullName :: seen) ↔
            m.fullName ∉ ms.map Message.fullName ∧ ∀ n ∈ ms, n.fullName ∉ seen := by
          simp only [List.mem_cons, not_or, List.mem_map, not_exists, not_and, forall_and]
        cases hrest : checkMessages (m.fullName :: seen) ms with
        | ok rest =>
          obtain ⟨h₁, h₂, h₃, rfl⟩ := ih.1 hrest
          obtain ⟨h₃, h₄⟩ := hlater.1 h₃
          simp only [Except.ok.injEq]
          constructor
          · rintro rfl
            exact ⟨⟨hnodup, h₁⟩, ⟨h₃, h₂⟩, ⟨hseen, h₄⟩, rfl⟩
          · rintro ⟨-, -, -, rfl⟩
            rfl
        | error e =>
          simp only [reduceCtorEq, false_iff]
          rintro ⟨⟨-, h₁⟩, ⟨h₂, h₃⟩, ⟨-, h₄⟩, -⟩
          rw [ih.2 ⟨h₁, h₃, hlater.2 ⟨h₂, h₄⟩, rfl⟩] at hrest
          cases hrest

/-- The well-known moments come first, so their names lead to them. -/
theorem message?_instant {ms : List Message} {es : List EnumType} {w : WellKnown}
    (hw : w = .timestamp ∨ w = .duration) :
    message? ⟨(wellKnownMessages ++ ms).map numbered, es⟩ w.fullName =
      some (numbered (instant w)) := by
  rcases hw with rfl | rfl <;> rfl

/-- What building a schema checks, and the schema that is built. -/
theorem build_eq_ok_iff {spec : SchemaSpec} :
    build spec = .ok s ↔
      (spec.enums.map EnumType.fullName).Nodup ∧
        (∀ m ∈ wellKnownMessages ++ spec.messages, (m.fields.map Field.name).Nodup) ∧
        ((wellKnownMessages ++ spec.messages).map Message.fullName).Nodup ∧
        s = ⟨(wellKnownMessages ++ spec.messages).map numbered, spec.enums⟩ ∧
        ∀ m ∈ s.messages, ∀ f ∈ m.fields, s.checkField m.fullName f = .ok () := by
  have henums := @firstRepeated?_eq_none_iff [] (spec.enums.map EnumType.fullName)
  have hmessages (out : List Message) := @checkMessages_eq_ok_iff []
    (wellKnownMessages ++ spec.messages) out
  simp only [List.not_mem_nil, not_false_eq_true, implies_true, and_true, true_and]
    at henums hmessages
  rw [← checkAll_eq_ok_iff, ← henums]
  unfold build
  split
  · rename_i hsome
    simp [hsome]
  · rename_i hnone
    rw [hnone]
    split
    · rename_i e herror
      simp only [reduceCtorEq, true_and, false_iff]
      rintro ⟨hfields, hnames, -⟩
      rw [(hmessages _).2 ⟨hfields, hnames, rfl⟩] at herror
      cases herror
    · rename_i messages hms
      obtain ⟨hfields, hnames, rfl⟩ := (hmessages _).1 hms
      dsimp only
      split
      · rename_i hall
        simp only [Except.ok.injEq, true_and]
        constructor
        · rintro rfl
          exact ⟨hfields, hnames, rfl, hall⟩
        · rintro ⟨-, -, rfl, -⟩
          rfl
      · rename_i e herror
        simp only [reduceCtorEq, true_and, false_iff]
        rintro ⟨-, -, rfl, hall⟩
        rw [hall] at herror
        cases herror

/-- A schema that has been built holds the well-known messages and those that were declared. -/
theorem eq_of_build {spec : SchemaSpec} (h : build spec = .ok s) :
    s = ⟨(wellKnownMessages ++ spec.messages).map numbered, spec.enums⟩ :=
  (build_eq_ok_iff.1 h).2.2.2.1

/-- A message that is a well-known moment by its name is the first of that name. -/
theorem eq_instant {spec : SchemaSpec} (h : build spec = .ok s) {w : WellKnown}
    (hw : w = .timestamp ∨ w = .duration) {t : String} (ht : s.message? t = some m)
    (hm : m.wellKnown? = some w) : m = numbered (instant w) := by
  have hname := WellKnown.fullName_of_ofFullName? hm
  rw [fullName_of_message? ht] at hname
  rw [eq_of_build h, hname, message?_instant hw] at ht
  exact (Option.some.inj ht).symm

theorem messageOf?_instant {spec : SchemaSpec} (h : build spec = .ok s) {w : WellKnown}
    (hw : w = .timestamp ∨ w = .duration) (hf : s.wellKnownOf? f = some w) :
    s.messageOf? f = some (numbered (instant w)) := by
  obtain ⟨m, hm, hwell⟩ := exists_of_wellKnownOf? hf
  obtain ⟨-, -, t, -, ht⟩ := exists_of_messageOf? hm
  rw [hm, eq_instant h hw ht hwell]

/-- A schema that has been built is checked. -/
theorem build_checked {spec : SchemaSpec} (h : build spec = .ok s) : s.Checked := by
  refine ⟨fun m hm f hf => checkField_ok ((build_eq_ok_iff.1 h).2.2.2.2 m hm f hf), ?_⟩
  intro w hw t m ht hm name hname
  rw [eq_instant h hw ht hm]
  rcases hw with rfl | rfl <;> rcases hname with rfl | rfl <;> exact Option.some_ne_none _

end Schema

end ListQuery
