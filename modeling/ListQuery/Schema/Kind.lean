/-!
Kinds of fields, how many values a field holds, and the message types that filters have literals
for.
-/

namespace ListQuery

inductive FieldKind where
  | double | float
  | int32 | int64 | uint32 | uint64 | sint32 | sint64
  | fixed32 | fixed64 | sfixed32 | sfixed64
  | bool | string | bytes | enum | message
  /-- An older form of a message. -/
  | group
deriving DecidableEq, Repr, Inhabited

namespace FieldKind

def all : List FieldKind :=
  [.double, .float, .int32, .int64, .uint32, .uint64, .sint32, .sint64, .fixed32, .fixed64,
    .sfixed32, .sfixed64, .bool, .string, .bytes, .enum, .message, .group]

def name : FieldKind → String
  | .double => "double"
  | .float => "float"
  | .int32 => "int32"
  | .int64 => "int64"
  | .uint32 => "uint32"
  | .uint64 => "uint64"
  | .sint32 => "sint32"
  | .sint64 => "sint64"
  | .fixed32 => "fixed32"
  | .fixed64 => "fixed64"
  | .sfixed32 => "sfixed32"
  | .sfixed64 => "sfixed64"
  | .bool => "bool"
  | .string => "string"
  | .bytes => "bytes"
  | .enum => "enum"
  | .message => "message"
  | .group => "group"

def ofName? (name : String) : Option FieldKind := all.find? fun k => k.name == name

/-- A kind shown for inspection. -/
def shown (k : FieldKind) : String := k.name.capitalize

def isSigned : FieldKind → Bool
  | .int32 | .int64 | .sint32 | .sint64 | .sfixed32 | .sfixed64 => true
  | _ => false

def isUnsigned : FieldKind → Bool
  | .uint32 | .uint64 | .fixed32 | .fixed64 => true
  | _ => false

def isFloat : FieldKind → Bool
  | .double | .float => true
  | _ => false

def isNumeric (k : FieldKind) : Bool := k.isSigned || k.isUnsigned || k.isFloat

def isMessage : FieldKind → Bool
  | .message | .group => true
  | _ => false

/-- Width in bits of the numeric kinds. -/
def bits? : FieldKind → Option Nat
  | .float | .int32 | .uint32 | .sint32 | .fixed32 | .sfixed32 => some 32
  | .double | .int64 | .uint64 | .sint64 | .fixed64 | .sfixed64 => some 64
  | _ => none

/-- Kinds that a map can have as keys. -/
def isMapKey (k : FieldKind) : Bool := k.isSigned || k.isUnsigned || k == .bool || k == .string

end FieldKind

inductive Cardinality where
  | singular | repeated | map
deriving DecidableEq, Repr

namespace Cardinality

def ofName? : String → Option Cardinality
  | "singular" => some .singular
  | "repeated" => some .repeated
  | "map" => some .map
  | _ => none

/-- A cardinality shown for inspection. -/
def shown : Cardinality → String
  | .singular => "Singular"
  | .repeated => "Repeated"
  | .map => "Map"

end Cardinality

/-- Message types that every schema has. -/
inductive WellKnown where
  | timestamp | duration | struct | value
deriving DecidableEq, Repr

namespace WellKnown

def fullName : WellKnown → String
  | .timestamp => "google.protobuf.Timestamp"
  | .duration => "google.protobuf.Duration"
  | .struct => "google.protobuf.Struct"
  | .value => "google.protobuf.Value"

def ofFullName? (name : String) : Option WellKnown :=
  [.timestamp, .duration, .struct, .value].find? fun w => w.fullName == name

/-- A well-known type shown for inspection. -/
def shown : WellKnown → String
  | .timestamp => "Timestamp"
  | .duration => "Duration"
  | .struct => "Struct"
  | .value => "Value"

end WellKnown

end ListQuery
