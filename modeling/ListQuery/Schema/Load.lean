/-
Schemas read from a JSON text.
-/
import ListQuery.Json.Decode
import ListQuery.Number.Word
import ListQuery.Schema.Build

namespace ListQuery

open Number

open Json.Raw (record? required? defaulted? optional? bool? str? int? nat? list? choice?)

/-- A field; its map parts are fields again, one level down. -/
def Field.ofRaw? : Nat → Json.Raw → Option Field
  | 0, _ => none
  | depth + 1, r => do
    let slots ← record? ["name", "number", "kind", "cardinality", "nullable", "type_name",
      "complexity", "map_key", "map_value"] (depth + 1) r
    match slots with
    | [name, number, kind, cardinality, nullable, typeName, complexity, mapKey, mapValue] =>
      some {
        name := ← required? str? name
        number := ← defaulted? 0 (nat? Word.maxNat32) number
        kind := ← required? (choice? depth FieldKind.ofName?) kind
        cardinality := ← defaulted? .singular (choice? depth Cardinality.ofName?) cardinality
        nullable := ← defaulted? false bool? nullable
        typeName := ← optional? str? typeName
        complexity := ← optional? (nat? Word.maxNat32) complexity
        mapKey := ← optional? (Field.ofRaw? depth) mapKey
        mapValue := ← optional? (Field.ofRaw? depth) mapValue }
    | _ => none

def Message.ofRaw? (depth : Nat) (r : Json.Raw) : Option Message := do
  match ← record? ["full_name", "fields"] depth r with
  | [name, fields] =>
    some {
      fullName := ← required? str? name
      fields := ← defaulted? [] (list? (depth - 1) (Field.ofRaw? (depth - 2))) fields }
  | _ => none

def enumValueOfRaw? (depth : Nat) (r : Json.Raw) : Option (String × Int) := do
  match ← record? ["name", "number"] depth r with
  | [name, number] =>
    some (← required? str? name, ← required? (int? Word.minInt32 Word.maxInt32) number)
  | _ => none

def EnumType.ofRaw? (depth : Nat) (r : Json.Raw) : Option EnumType := do
  match ← record? ["full_name", "values"] depth r with
  | [name, values] =>
    some {
      fullName := ← required? str? name
      values := ← defaulted? [] (list? (depth - 1) (enumValueOfRaw? (depth - 2))) values }
  | _ => none

def SchemaSpec.ofRaw? (depth : Nat) (r : Json.Raw) : Option SchemaSpec := do
  match ← record? ["messages", "enums"] depth r with
  | [messages, enums] =>
    some {
      messages := ← defaulted? [] (list? (depth - 1) (Message.ofRaw? (depth - 2))) messages
      enums := ← defaulted? [] (list? (depth - 1) (EnumType.ofRaw? (depth - 2))) enums }
  | _ => none

/-- Why a text gives no schema. -/
inductive LoadError where
  | json
  | schema (error : SchemaError)

/-- The schema that a JSON text declares. -/
def Schema.ofJson (text : String) : Except LoadError Schema :=
  match (Json.Raw.ofString? text).bind (SchemaSpec.ofRaw? Json.maxDepth) with
  | none => .error .json
  | some spec =>
    match Schema.build spec with
    | .ok s => .ok s
    | .error e => .error (.schema e)

end ListQuery
