/-
Declarations: fields, messages and enums as somebody writes them down. Types are named, not linked,
so messages may refer to each other freely.
-/
import ListQuery.Schema.Kind
import ListQuery.Text.Shown

namespace ListQuery

structure Field where
  name : String
  /-- Zero stands for the place among the fields. -/
  number : Nat := 0
  kind : FieldKind
  cardinality : Cardinality := .singular
  /-- Whether null is a value of the field. -/
  nullable : Bool := false
  /-- The message or enum of a field of such a kind. -/
  typeName : Option String := none
  /-- The cost of reading the field, one if there is none. -/
  complexity : Option Nat := none
  mapKey : Option Field := none
  mapValue : Option Field := none
deriving Inhabited

namespace Field

def isRepeated (f : Field) : Bool := f.cardinality == .repeated

def isMap (f : Field) : Bool := f.cardinality == .map

/-- A field of a message type. -/
def ofMessage (name typeName : String) : Field :=
  { name, kind := .message, typeName := some typeName }

/-- A field of an enum type. -/
def ofEnum (name typeName : String) : Field :=
  { name, kind := .enum, typeName := some typeName }

/-- A map; its key and value get the names and numbers that entries have. -/
def ofMap (name : String) (key value : Field) : Field :=
  { name
    kind := .message
    cardinality := .map
    mapKey := some { key with name := "key", number := 1 }
    mapValue := some { value with name := "value", number := 2 } }

/-- A field shown for inspection. -/
def shown (f : Field) : String :=
  Text.shownRecord "Field" [
    ("name", Text.shown f.name), ("kind", f.kind.shown), ("cardinality", f.cardinality.shown)]

end Field

structure Message where
  fullName : String
  fields : List Field := []

namespace Message

/-- The field with a name. -/
def field? (m : Message) (name : String) : Option Field := m.fields.find? fun f => f.name == name

def wellKnown? (m : Message) : Option WellKnown := WellKnown.ofFullName? m.fullName

/-- A message shown for inspection. -/
def shown (m : Message) : String :=
  Text.shownRecord "Message" [("full_name", Text.shown m.fullName)]

end Message

structure EnumType where
  fullName : String
  values : List (String × Int) := []

/-- The number of a value; the last of those with a name counts. -/
def EnumType.number? (e : EnumType) (name : String) : Option Int :=
  (e.values.reverse.find? fun v => v.1 == name).map (·.2)

/-- What a schema is made from. -/
structure SchemaSpec where
  messages : List Message := []
  enums : List EnumType := []

end ListQuery
