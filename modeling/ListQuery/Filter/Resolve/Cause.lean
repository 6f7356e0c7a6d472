/-
Why a filter does not fit a schema.
-/
import ListQuery.Filter.Error
import ListQuery.Schema.Kind

namespace ListQuery.Filter

inductive ValueCause where
  | tooDeep (limit : Nat)
  | literalAlone
  | badLeftSide
  | noResultType (function : String)
  | needsArray
  | notFieldName (raw : String)
  | unknownField (name message : String)
  | scalarMapValues (map : String)
  | noSubfield (field : String) (kind : FieldKind) (name : String)
  | unknownFunction (name : String)
  | arity (function : String) (declared given : Nat)
  | resultKind (function : String) (result : FieldKind) (field : String) (kind : FieldKind)
  | comparisonInGroup
  | arrayForMap (field : String)
  | indirect
  | notScalar (kind : FieldKind) (field : String)
  | trailingField (raw : String)
  | notNullable (field : String)
  | mismatch (leaf : Kind) (raw : String) (kind : FieldKind) (field : String)
  | outOfRange (raw : String) (kind : FieldKind)
  | unknownEnumValue (value field : String)
  | notTimestamp (text : String)
  | notDuration (text : String)
  | timestampRange
  | durationRange
  | duplicateField (name : String)
  | duplicateKey (key : String)
  | needsInteger (field : String)
  | needsTypeName (expected : String)
  | wrongTypeName (expected found : String)
  | namedMap (field : String)
deriving DecidableEq, Repr

def ValueCause.message : ValueCause → String
  | .tooDeep limit => "filter too deeply nested (max depth: " ++ Text.decimal limit ++ ")"
  | .literalAlone => "a literal cannot stand alone as a restriction"
  | .badLeftSide => "left side of a comparison must be a field or a function"
  | .noResultType function => "function '" ++ function ++ "' has no declared result type"
  | .needsArray => "IN requires an array or a repeated field"
  | .notFieldName raw => "'" ++ raw ++ "' is not a field name"
  | .unknownField name message => "unknown field '" ++ name ++ "' in " ++ message
  | .scalarMapValues map => "map '" ++ map ++ "' has scalar values without fields"
  | .noSubfield field kind name =>
    "field '" ++ field ++ "' of type " ++ kind.name ++ " has no field '" ++ name ++ "'"
  | .unknownFunction name => "unknown function '" ++ name ++ "'"
  | .arity function declared given =>
    "function '" ++ function ++ "' takes " ++ Text.decimal declared ++ " argument(s), " ++
      Text.decimal given ++ " given"
  | .resultKind function result field kind =>
    "function '" ++ function ++ "' returns " ++ result.name ++ ", field '" ++ field ++ "' is " ++
      kind.name
  | .comparisonInGroup => "comparisons are not allowed inside a value group"
  | .arrayForMap field => "array literal is not valid for map field '" ++ field ++ "'"
  | .indirect => "field does not allow indirect value"
  | .notScalar kind field => "expected a " ++ kind.name ++ " value for field '" ++ field ++ "'"
  | .trailingField raw => "unexpected '." ++ raw ++ "' after value"
  | .notNullable field => "field '" ++ field ++ "' is not nullable"
  | .mismatch leaf raw kind field =>
    leaf.describe ++ " '" ++ raw ++ "' is not a valid " ++ kind.name ++ " value for field '" ++
      field ++ "'"
  | .outOfRange raw kind => raw ++ " is out of range for " ++ kind.name
  | .unknownEnumValue value field =>
    "unknown value '" ++ value ++ "' for enum field '" ++ field ++ "'"
  | .notTimestamp text => "'" ++ text ++ "' is not an RFC 3339 timestamp"
  | .notDuration text => "'" ++ text ++ "' is not a duration"
  | .timestampRange => "timestamp out of range"
  | .durationRange => "duration out of range"
  | .duplicateField name => "duplicate field '" ++ name ++ "'"
  | .duplicateKey key => "duplicate key '" ++ key ++ "'"
  | .needsInteger field => "field '" ++ field ++ "' requires an integer"
  | .needsTypeName expected => "struct literal requires the type name " ++ expected
  | .wrongTypeName expected found => "expected " ++ expected ++ ", found " ++ found
  | .namedMap field => "map literal for field '" ++ field ++ "' cannot have a type name"

end ListQuery.Filter
