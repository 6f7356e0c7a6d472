/-
Which expressions are values of a field, and which field describes the values that something is
compared with. Groups and arrays hold values of the field itself; a field or a call may stand for
any value, where the mode allows it.
-/
import ListQuery.Filter.Expr.Conform
import ListQuery.Filter.Resolve.Value
import ListQuery.Proofs.Resolve.Reads
import ListQuery.Proofs.Schema.Checked

namespace ListQuery.Filter

/-- The values that places for any value have literals for, besides arrays and maps. -/
def Value.isDynamic : Value → Bool
  | .null | .bool _ | .float64 _ | .string _ => true
  | _ => false

/-- Whether an expression is a text as such. -/
def Expr.isText : Expr → Bool
  | .value (.string _) => true
  | _ => false

mutual

/-- Whether an expression is a value of any type: arrays and maps hold such values again. -/
def Expr.isDynamic : Expr → Bool
  | .value v => v.isDynamic
  | .array items => allDynamic items
  | .map entries => entriesDynamic entries
  | .call .. => true
  | _ => false

def allDynamic : List Expr → Bool
  | [] => true
  | e :: es => e.isDynamic && allDynamic es

def entriesDynamic : List (Expr × Expr) → Bool
  | [] => true
  | (k, v) :: es => k.isText && v.isDynamic && entriesDynamic es

end

/-- Whether an expression is a literal of a field. -/
def Expr.isLiteralOf (s : Schema) (f : Field) : Expr → Bool
  | .value v => v.conformsTo s f
  | _ => false

mutual

/-- Whether an expression is a value of a field. -/
def Expr.wellTyped (s : Schema) (f : Field) : Expr → Bool
  | .and items => allTyped s f items
  | .or items => allTyped s f items
  | .array items => allTyped s f items
  | .not item => item.wellTyped s f
  | .field _ => true
  | .call .. => true
  | .value v => v.conformsTo s f && v.partsTyped s
  | .map entries =>
    if f.isMap then
      match f.mapKey, f.mapValue with
      | some key, some value => entriesTyped s key value entries
      | _, _ => false
    else
      (s.wellKnownOf? f == some .struct || s.wellKnownOf? f == some .value) &&
        entriesDynamic entries
  | .compare .. => false

/-- Whether the fields of a message are fields of its type, with values of theirs. -/
def Value.partsTyped (s : Schema) : Value → Bool
  | .message typeName fields => namedTyped s (s.message? typeName) fields
  | _ => true

def allTyped (s : Schema) (f : Field) : List Expr → Bool
  | [] => true
  | e :: es => e.wellTyped s f && allTyped s f es

def namedTyped (s : Schema) (m : Option Message) : List (String × Expr) → Bool
  | [] => true
  | (name, e) :: es =>
    (match m.bind fun m => m.field? name with
      | some f => e.wellTyped s f
      | none => false) && namedTyped s m es

def entriesTyped (s : Schema) (key value : Field) : List (Expr × Expr) → Bool
  | [] => true
  | (k, v) :: es => k.isLiteralOf s key && v.wellTyped s value && entriesTyped s key value es

end

/-! ## Comparisons and what they are about -/

mutual

/-- The comparisons of an expression at any depth: left side, comparator and right side. -/
def Expr.comparisons : Expr → List (Expr × Comparator × Expr)
  | .compare left c right => (left, c, right) :: (left.comparisons ++ right.comparisons)
  | .and items => itemComparisons items
  | .or items => itemComparisons items
  | .array items => itemComparisons items
  | .not item => item.comparisons
  | .field _ => []
  | .call _ _ args _ => itemComparisons args
  | .value v => v.comparisons
  | .map entries => entryComparisons entries

def Value.comparisons : Value → List (Expr × Comparator × Expr)
  | .message _ fields => fieldComparisons fields
  | _ => []

def itemComparisons : List Expr → List (Expr × Comparator × Expr)
  | [] => []
  | e :: es => e.comparisons ++ itemComparisons es

def entryComparisons : List (Expr × Expr) → List (Expr × Comparator × Expr)
  | [] => []
  | (k, v) :: es => k.comparisons ++ v.comparisons ++ entryComparisons es

def fieldComparisons : List (String × Expr) → List (Expr × Comparator × Expr)
  | [] => []
  | (_, v) :: fs => v.comparisons ++ fieldComparisons fs

end

/-- Where a step leads: to a field of the message, or to the values of the map. -/
def stepTo? (s : Schema) (f : Field) : SelectorStep → Option Field
  | .field x => (s.messageOf? f).bind fun m => m.field? x.name
  | .key _ _ => if f.isMap then f.mapValue else none

/-- Where steps lead. -/
def stepsTo? (s : Schema) (f : Field) : List SelectorStep → Option Field
  | [] => some f
  | x :: xs => (stepTo? s f x).bind fun g => stepsTo? s g xs

/-- The field or map value at the end of a selector that starts in a message. -/
def fieldAt? (s : Schema) (m : Message) (x : Selector) : Option Field :=
  (m.field? x.head.name).bind fun f => stepsTo? s f x.steps

namespace Resolver

/-- The field that describes the values of a left side: the one at its end, or the declared result
of the function. -/
def target? (r : Resolver) : Expr → Option Field
  | .field x => fieldAt? r.schema r.root x
  | .call package name _ _ =>
    (r.options.function? (Signature.qualifiedName { package, name })).bind Signature.result
  | _ => none

/-- The field whose values stand on the right: a map has its keys. -/
def operand? (r : Resolver) (left : Expr) (c : Comparator) : Option Field :=
  (r.target? left).bind fun f => if c = .has ∧ f.isMap = true then f.mapKey else some f

end Resolver

/-- A selector starts at the field that it was made from. -/
theorem fieldAt?_ofField {s : Schema} {m : Message} {name : String} {f : Field}
    (h : m.field? name = some f) (xs : List SelectorStep) :
    fieldAt? s m ⟨.ofField f, xs⟩ = stepsTo? s f xs := by
  rw [fieldAt?, FieldStep.ofField, Message.name_of_field? h, h, Option.bind_some]

/-- A step into a message goes on with a selector that starts there. -/
theorem stepsTo?_field {s : Schema} {f : Field} {m : Message} (h : s.messageOf? f = some m)
    (x : Selector) : stepsTo? s f (.field x.head :: x.steps) = fieldAt? s m x := by
  rw [stepsTo?, stepTo?, h, Option.bind_some, fieldAt?]

/-- A step into a map goes on from its values. -/
theorem stepsTo?_key {s : Schema} {f value : Field} (hmap : f.isMap = true)
    (h : f.mapValue = some value) (k : MapKey) (kind : FieldKind) (xs : List SelectorStep) :
    stepsTo? s f (.key k kind :: xs) = stepsTo? s value xs := by
  rw [stepsTo?, stepTo?, if_pos hmap, h, Option.bind_some]

theorem allTyped_iff {s : Schema} {f : Field} {es : List Expr} :
    allTyped s f es = true ↔ ∀ e ∈ es, e.wellTyped s f = true := by
  induction es with
  | nil => simp [allTyped]
  | cons e es ih => simp [allTyped, ih]

theorem allDynamic_iff {es : List Expr} :
    allDynamic es = true ↔ ∀ e ∈ es, e.isDynamic = true := by
  induction es with
  | nil => simp [allDynamic]
  | cons e es ih => simp [allDynamic, ih]

theorem itemComparisons_eq (es : List Expr) :
    itemComparisons es = es.flatMap Expr.comparisons := by
  induction es with
  | nil => rfl
  | cons e es ih => rw [itemComparisons, ih, List.flatMap_cons]

namespace Expr

/-- What is said of a conjunction by its items is said of one item alone by itself. -/
theorem apply_conjunction {β : Type} {g : Expr → β} {all : List Expr → β}
    (hone : ∀ e, all [e] = g e) (hand : ∀ es, g (.and es) = all es) (es : List Expr) :
    g (conjunction es) = all es := by
  match es with
  | [] => exact hand []
  | [e] => exact (hone e).symm
  | _ :: _ :: _ => exact hand _

theorem apply_disjunction {β : Type} {g : Expr → β} {all : List Expr → β}
    (hone : ∀ e, all [e] = g e) (hor : ∀ es, g (.or es) = all es) (es : List Expr) :
    g (disjunction es) = all es := by
  match es with
  | [] => exact hor []
  | [e] => exact (hone e).symm
  | _ :: _ :: _ => exact hor _

theorem allTyped_singleton (s : Schema) (f : Field) (e : Expr) :
    allTyped s f [e] = e.wellTyped s f := by
  rw [allTyped, allTyped, Bool.and_true]

theorem itemComparisons_singleton (e : Expr) : itemComparisons [e] = e.comparisons := by
  rw [itemComparisons, itemComparisons, List.append_nil]

theorem itemReads_singleton (e : Expr) : itemReads [e] = e.reads := by
  rw [itemReads, itemReads, List.append_nil]

theorem wellTyped_conjunction (s : Schema) (f : Field) (es : List Expr) :
    (conjunction es).wellTyped s f = allTyped s f es :=
  apply_conjunction (allTyped_singleton s f) (fun _ => rfl) es

theorem wellTyped_disjunction (s : Schema) (f : Field) (es : List Expr) :
    (disjunction es).wellTyped s f = allTyped s f es :=
  apply_disjunction (allTyped_singleton s f) (fun _ => rfl) es

theorem comparisons_conjunction (es : List Expr) :
    (conjunction es).comparisons = itemComparisons es :=
  apply_conjunction itemComparisons_singleton (fun _ => rfl) es

theorem comparisons_disjunction (es : List Expr) :
    (disjunction es).comparisons = itemComparisons es :=
  apply_disjunction itemComparisons_singleton (fun _ => rfl) es

theorem reads_conjunction (es : List Expr) : (conjunction es).reads = itemReads es :=
  apply_conjunction itemReads_singleton (fun _ => rfl) es

theorem reads_disjunction (es : List Expr) : (disjunction es).reads = itemReads es :=
  apply_disjunction itemReads_singleton (fun _ => rfl) es

end Expr

/-- A value of a field that holds no comparisons, and reads nothing where it may not. -/
structure Typed (s : Schema) (f : Field) (mode : ValueMode) (e : Expr) : Prop where
  wellTyped : e.wellTyped s f = true
  comparisons : e.comparisons = []
  direct : mode.allowIndirect = false → e.reads = []

/-- A value of any type that holds no comparisons, and reads nothing where it may not. -/
structure Dynamic (mode : ValueMode) (e : Expr) : Prop where
  isDynamic : e.isDynamic = true
  comparisons : e.comparisons = []
  direct : mode.allowIndirect = false → e.reads = []

theorem itemComparisons_eq_nil {es : List Expr} (h : ∀ e ∈ es, e.comparisons = []) :
    itemComparisons es = [] := by
  rw [itemComparisons_eq, List.flatMap_eq_nil_iff]
  exact h

namespace Typed

variable {s : Schema} {f : Field} {mode : ValueMode} {es : List Expr} {e : Expr}

theorem conjunction (h : ∀ e ∈ es, Typed s f mode e) : Typed s f mode (.conjunction es) where
  wellTyped := by
    rw [Expr.wellTyped_conjunction]
    exact allTyped_iff.2 fun e he => (h e he).wellTyped
  comparisons := by
    rw [Expr.comparisons_conjunction]
    exact itemComparisons_eq_nil fun e he => (h e he).comparisons
  direct hmode := by
    rw [Expr.reads_conjunction]
    exact itemReads_eq_nil fun e he => (h e he).direct hmode

theorem disjunction (h : ∀ e ∈ es, Typed s f mode e) : Typed s f mode (.disjunction es) where
  wellTyped := by
    rw [Expr.wellTyped_disjunction]
    exact allTyped_iff.2 fun e he => (h e he).wellTyped
  comparisons := by
    rw [Expr.comparisons_disjunction]
    exact itemComparisons_eq_nil fun e he => (h e he).comparisons
  direct hmode := by
    rw [Expr.reads_disjunction]
    exact itemReads_eq_nil fun e he => (h e he).direct hmode

theorem array (h : ∀ e ∈ es, Typed s f mode e) : Typed s f mode (.array es) where
  wellTyped := allTyped_iff.2 fun e he => (h e he).wellTyped
  comparisons := itemComparisons_eq_nil fun e he => (h e he).comparisons
  direct hmode := itemReads_eq_nil fun e he => (h e he).direct hmode

theorem not (h : Typed s f mode e) : Typed s f mode (.not e) :=
  ⟨h.wellTyped, h.comparisons, h.direct⟩

/-- A field stands for any value, where it may. -/
theorem field (hmode : mode.allowIndirect = true) (x : Selector) : Typed s f mode (.field x) where
  wellTyped := rfl
  comparisons := rfl
  direct hdirect := by cases hmode.symm.trans hdirect

/-- A call stands for any value, where it may; its arguments are values as well. -/
theorem call (hmode : mode.allowIndirect = true) (package name : String) (cost : Nat)
    (h : ∀ e ∈ es, e.comparisons = []) : Typed s f mode (.call package name es cost) where
  wellTyped := rfl
  comparisons := itemComparisons_eq_nil h
  direct hdirect := by cases hmode.symm.trans hdirect

end Typed

theorem wellKnownOf?_eq_none {s : Schema} {f : Field} (h : f.kind.isMessage = false) :
    s.wellKnownOf? f = none := by
  simp [Schema.wellKnownOf?, Schema.messageOf?, h]

theorem not_isMap_of_wellKnownOf? {s : Schema} {f : Field} {w : WellKnown}
    (h : s.wellKnownOf? f = some w) : f.isMap = false := by
  cases hmap : f.isMap with
  | false => rfl
  | true => simp [Schema.wellKnownOf?, Schema.messageOf?, hmap] at h

namespace Value

theorem conformsTo_of_fitsKind {s : Schema} {f : Field} {v : Value}
    (hw : s.wellKnownOf? f = none) (h : v.fitsKind s f = true) : v.conformsTo s f = true := by
  cases v with
  | null => cases h
  | _ => simpa only [conformsTo, hw] using h

/-- A scalar of the field's kind. -/
theorem typed_of_fitsKind {s : Schema} {f : Field} {mode : ValueMode} {v : Value}
    (hw : s.wellKnownOf? f = none) (h : v.fitsKind s f = true) (hparts : v.partsTyped s = true)
    (hc : v.comparisons = []) (hd : mode.allowIndirect = false → v.reads = []) :
    Typed s f mode (.value v) where
  wellTyped := by simp only [Expr.wellTyped, conformsTo_of_fitsKind hw h, hparts, Bool.and_self]
  comparisons := hc
  direct := hd

end Value

/-! A place of the well-known type for any value takes all of them. -/

mutual

theorem wellTyped_of_isDynamic {s : Schema} {f : Field} (hf : s.wellKnownOf? f = some .value) :
    ∀ e : Expr, e.isDynamic = true → e.wellTyped s f = true
  | .value v, h => by
    cases v with
    | null | bool _ | float64 _ | string _ =>
      simp [Expr.wellTyped, Value.conformsTo, Value.partsTyped, hf]
    | _ => cases h
  | .array es, h => allTyped_of_allDynamic hf es h
  | .map entries, h => by
    simpa [Expr.wellTyped, Expr.isDynamic, not_isMap_of_wellKnownOf? hf, hf] using h
  | .call .., _ => rfl
  | .compare .., h | .and _, h | .or _, h | .not _, h | .field _, h => by cases h

theorem allTyped_of_allDynamic {s : Schema} {f : Field} (hf : s.wellKnownOf? f = some .value) :
    ∀ es : List Expr, allDynamic es = true → allTyped s f es = true
  | [], _ => rfl
  | e :: es, h => by
    simp only [allDynamic, Bool.and_eq_true] at h
    simp only [allTyped, wellTyped_of_isDynamic hf e h.1, allTyped_of_allDynamic hf es h.2,
      Bool.and_self]

end

theorem Dynamic.typed {s : Schema} {f : Field} {mode : ValueMode} {e : Expr} (h : Dynamic mode e)
    (hf : s.wellKnownOf? f = some .value) : Typed s f mode e :=
  ⟨wellTyped_of_isDynamic hf e h.isDynamic, h.comparisons, h.direct⟩

end ListQuery.Filter
