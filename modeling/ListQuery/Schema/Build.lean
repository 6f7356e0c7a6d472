/-
Schemas: declarations that have been checked. All names are distinct, every type that a field names
is there, and every map has a key and a value that a map can have. The well-known messages belong to
every schema.
-/
import ListQuery.Schema.Field

namespace ListQuery

inductive SchemaError where
  | duplicateMessage (message : String)
  | duplicateEnum (enum : String)
  | duplicateField (message field : String)
  | unknownType (message field typeName : String)
  | missingTypeName (message field : String)
  | invalidMap (message field reason : String)
deriving DecidableEq, Repr

namespace SchemaError

def message : SchemaError → String
  | .duplicateMessage m => "Duplicate message type: " ++ m
  | .duplicateEnum e => "Duplicate enum type: " ++ e
  | .duplicateField m f => "Duplicate field '" ++ f ++ "' in message " ++ m
  | .unknownType m f t => "Field '" ++ f ++ "' in " ++ m ++ " references unknown type '" ++ t ++ "'"
  | .missingTypeName m f => "Field '" ++ f ++ "' in " ++ m ++ " requires a type name"
  | .invalidMap m f reason => "Invalid map field '" ++ f ++ "' in " ++ m ++ ": " ++ reason

end SchemaError

/-- Checked declarations. -/
structure Schema where
  messages : List Message
  enums : List EnumType

namespace Schema

def message? (s : Schema) (fullName : String) : Option Message :=
  s.messages.find? fun m => m.fullName == fullName

def enum? (s : Schema) (fullName : String) : Option EnumType :=
  s.enums.find? fun e => e.fullName == fullName

def containsEnum (s : Schema) (fullName : String) : Bool := (s.enum? fullName).isSome

/-- The message type of a field. A map has none of its own. -/
def messageOf? (s : Schema) (f : Field) : Option Message :=
  if f.kind.isMessage && !f.isMap then f.typeName.bind s.message? else none

def wellKnownOf? (s : Schema) (f : Field) : Option WellKnown :=
  (s.messageOf? f).bind Message.wellKnown?

/-- The number of a value of a field's enum. -/
def enumValue? (s : Schema) (f : Field) (name : String) : Option Int :=
  if f.kind = .enum then (f.typeName.bind s.enum?).bind fun e => e.number? name else none

/-- A schema shown for inspection: the names of its messages in order. -/
def shown (s : Schema) : String :=
  let names := (s.messages.map Message.fullName).mergeSort fun a b => decide (a ≤ b)
  Text.shownRecord "Schema" [("messages", Text.shownList (names.map Text.shown))]

/-! ## Building -/

/-- A count of seconds and nanoseconds. -/
def instant (w : WellKnown) : Message :=
  ⟨w.fullName, [{ name := "seconds", kind := .int64, number := 1 },
    { name := "nanos", kind := .int32, number := 2 }]⟩

/-- The messages that every schema has. -/
def wellKnownMessages : List Message := [
  instant .timestamp,
  instant .duration,
  ⟨WellKnown.value.fullName, []⟩,
  ⟨WellKnown.struct.fullName, [
    { Field.ofMap "fields" { name := "key", kind := .string }
        (Field.ofMessage "value" WellKnown.value.fullName) with
      number := 1 }]⟩]

/-- The first name that has come before. -/
def firstRepeated? : List String → List String → Option String
  | _, [] => none
  | seen, n :: ns => if seen.contains n then some n else firstRepeated? (n :: seen) ns

/-- The number for a place among the fields, places counted from zero and numbers from one. Numbers
have 32 bits. -/
def placeNumber (i : Nat) : UInt32 := UInt32.ofNat i + 1

theorem placeNumber_eq {i : Nat} (h : i + 1 < UInt32.size) : (placeNumber i).toNat = i + 1 := by
  rw [placeNumber, UInt32.toNat_add, UInt32.toNat_ofNat_of_lt' (Nat.lt_of_succ_lt h)]
  exact Nat.mod_eq_of_lt h

/-- Numbers the fields that have no number by their place. -/
def numberFields (fields : List Field) : List Field :=
  fields.mapIdx fun i f => if f.number = 0 then { f with number := (placeNumber i).toNat } else f

/-- Messages with their fields numbered; the names of fields, and then of messages, are checked in
the order of declaration. -/
def checkMessages (seen : List String) : List Message → Except SchemaError (List Message)
  | [] => .ok []
  | m :: ms =>
    match firstRepeated? [] (m.fields.map Field.name) with
    | some field => .error (.duplicateField m.fullName field)
    | none =>
      if seen.contains m.fullName then .error (.duplicateMessage m.fullName)
      else
        match checkMessages (m.fullName :: seen) ms with
        | .ok rest => .ok ({ m with fields := numberFields m.fields } :: rest)
        | .error e => .error e

/-- A field that holds messages or an enum names a type that is there. -/
def checkType (s : Schema) (message : String) (f : Field) : Except SchemaError Unit :=
  if f.kind.isMessage || f.kind == .enum then
    match f.typeName with
    | none => .error (.missingTypeName message f.name)
    | some t =>
      if if f.kind = .enum then s.containsEnum t else (s.message? t).isSome then .ok ()
      else .error (.unknownType message f.name t)
  else .ok ()

def checkField (s : Schema) (message : String) (f : Field) : Except SchemaError Unit :=
  if f.isMap then
    match f.mapKey, f.mapValue with
    | none, _ => .error (.invalidMap message f.name "missing key")
    | some _, none => .error (.invalidMap message f.name "missing value")
    | some key, some value =>
      if !key.kind.isMapKey then
        .error (.invalidMap message f.name "key kind cannot be used as a map key")
      else if key.cardinality ≠ .singular ∨ value.cardinality ≠ .singular then
        .error (.invalidMap message f.name "map key and value must be singular")
      else s.checkType message value
  else s.checkType message f

def checkFields (s : Schema) (message : String) : List Field → Except SchemaError Unit
  | [] => .ok ()
  | f :: fs =>
    match s.checkField message f with
    | .ok _ => checkFields s message fs
    | .error e => .error e

def checkAll (s : Schema) : List Message → Except SchemaError Unit
  | [] => .ok ()
  | m :: ms =>
    match s.checkFields m.fullName m.fields with
    | .ok _ => checkAll s ms
    | .error e => .error e

/-- Checks declarations: enum names, then the names of fields and messages, then types. -/
def build (spec : SchemaSpec) : Except SchemaError Schema :=
  match firstRepeated? [] (spec.enums.map EnumType.fullName) with
  | some e => .error (.duplicateEnum e)
  | none =>
    match checkMessages [] (wellKnownMessages ++ spec.messages) with
    | .error e => .error e
    | .ok messages =>
      let s : Schema := ⟨messages, spec.enums⟩
      match s.checkAll messages with
      | .ok _ => .ok s
      | .error e => .error e

end Schema

end ListQuery
