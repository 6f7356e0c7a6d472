/-
Which values a field takes as literals. Of a repeated field it is the elements that are meant.
-/
import ListQuery.Filter.Expr
import ListQuery.Schema.Build

namespace ListQuery.Filter

namespace Value

/-- Whether a value is of a scalar kind, or of the field's message type. -/
def fitsKind (s : Schema) (f : Field) : Value → Bool
  | .int64 _ => f.kind.isSigned
  | .uint64 _ => f.kind.isUnsigned
  | .float64 _ => f.kind.isFloat
  | .bool _ => f.kind == .bool
  | .string _ => f.kind == .string
  | .bytes _ => f.kind == .bytes
  | .enum _ => f.kind == .enum
  | .message typeName _ => (s.messageOf? f).any fun m => m.fullName == typeName
  | .timestamp _ | .duration _ | .null => false

/-- Whether a value is a literal of a field. -/
def conformsTo (s : Schema) (f : Field) (v : Value) : Bool :=
  match v, s.wellKnownOf? f with
  | .null, w => f.nullable || w == some .value
  | .timestamp _, some .timestamp => true
  | .duration _, some .duration => true
  | .bool _, some .value => true
  | .float64 _, some .value => true
  | .string _, some .value => true
  | _, some _ => false
  | v, none => v.fitsKind s f

end Value

end ListQuery.Filter
