/-
Typed expressions: what a filter means once its names are fields of a schema and its literals are
values of those fields.
-/
import ListQuery.Filter.Tree
import ListQuery.Number.Binary64
import ListQuery.Schema.Field
import ListQuery.Time.Duration
import ListQuery.Time.Timestamp

namespace ListQuery.Filter

open Number Time

/-- A key of a map. -/
inductive MapKey where
  | string (s : String)
  | bool (b : Bool)
  | int64 (n : Int)
  | uint64 (n : Nat)
deriving DecidableEq, Repr

/-- A field on the way of a selector. -/
structure FieldStep where
  name : String
  number : Nat
  kind : FieldKind
  complexity : Nat
deriving DecidableEq, Repr

/-- The cost of a field that declares none. -/
def defaultComplexity : Nat := 1

def FieldStep.ofField (f : Field) : FieldStep :=
  ⟨f.name, f.number, f.kind, f.complexity.getD defaultComplexity⟩

/-- A step into a message or a map. -/
inductive SelectorStep where
  /-- A field of the message, or of each message of a repeated field. -/
  | field (f : FieldStep)
  /-- The entry of a map. -/
  | key (k : MapKey) (valueKind : FieldKind)
deriving DecidableEq, Repr

/-- A field of the root message and the steps from there on. -/
structure Selector where
  head : FieldStep
  steps : List SelectorStep
deriving DecidableEq, Repr

mutual

inductive Value where
  | null
  | bool (b : Bool)
  | int64 (n : Int)
  | uint64 (n : Nat)
  | float64 (x : Binary64)
  | string (s : String)
  | bytes (bs : List UInt8)
  | timestamp (t : Timestamp)
  | duration (d : Duration)
  | enum (n : Int)
  | message (typeName : String) (fields : List (String × Expr))

inductive Expr where
  | compare (left : Expr) (comparator : Comparator) (right : Expr)
  | and (items : List Expr)
  | or (items : List Expr)
  | not (item : Expr)
  | field (s : Selector)
  | call (package name : String) (args : List Expr) (complexity : Nat)
  | value (v : Value)
  | array (items : List Expr)
  | map (entries : List (Expr × Expr))

end

/-- What a value is, in a word. -/
def Value.kindName : Value → String
  | .null => "Null"
  | .bool _ => "Bool"
  | .int64 _ => "Int64"
  | .uint64 _ => "Uint64"
  | .float64 _ => "Float64"
  | .string _ => "String"
  | .bytes _ => "Bytes"
  | .timestamp _ => "Timestamp"
  | .duration _ => "Duration"
  | .enum _ => "Enum"
  | .message _ _ => "Message"

def MapKey.toValue : MapKey → Value
  | .string s => .string s
  | .bool b => .bool b
  | .int64 n => .int64 n
  | .uint64 n => .uint64 n

namespace Expr

/-- A conjunction; one item alone is itself. -/
def conjunction : List Expr → Expr
  | [e] => e
  | es => .and es

/-- A disjunction; one item alone is itself. -/
def disjunction : List Expr → Expr
  | [e] => e
  | es => .or es

end Expr

namespace Selector

/-- The kind of the field or map value at the end. -/
def leafKind (s : Selector) : FieldKind :=
  match s.steps.getLast? with
  | some (.field f) => f.kind
  | some (.key _ kind) => kind
  | none => s.head.kind

/-- The summed cost of the fields among steps. -/
def stepsComplexity : List SelectorStep → Nat
  | [] => 0
  | .field f :: steps => f.complexity + stepsComplexity steps
  | .key _ _ :: steps => stepsComplexity steps

/-- The summed cost of the fields on the way. -/
def complexity (s : Selector) : Nat := s.head.complexity + stepsComplexity s.steps

end Selector

/-! ## Cost and indirection -/

mutual

/-- Whether an expression reads a record; a comparison does so when its right side does. -/
def Expr.isIndirect : Expr → Bool
  | .field _ => true
  | .call .. => true
  | .value v => v.isIndirect
  | .compare _ _ right => right.isIndirect
  | .not item => item.isIndirect
  | .and items => anyIndirect items
  | .or items => anyIndirect items
  | .array items => anyIndirect items
  | .map entries => anyEntryIndirect entries

def Value.isIndirect : Value → Bool
  | .message _ fields => anyFieldIndirect fields
  | _ => false

def anyIndirect : List Expr → Bool
  | [] => false
  | e :: es => e.isIndirect || anyIndirect es

def anyEntryIndirect : List (Expr × Expr) → Bool
  | [] => false
  | (k, v) :: es => k.isIndirect || v.isIndirect || anyEntryIndirect es

def anyFieldIndirect : List (String × Expr) → Bool
  | [] => false
  | (_, v) :: fs => v.isIndirect || anyFieldIndirect fs

end

mutual

/-- The summed cost of all fields that are read and all calls that are made. -/
def Expr.complexity : Expr → Nat
  | .field s => s.complexity
  | .call _ _ args cost => cost + totalComplexity args
  | .value v => v.complexity
  | .compare left _ right => left.complexity + right.complexity
  | .not item => item.complexity
  | .and items => totalComplexity items
  | .or items => totalComplexity items
  | .array items => totalComplexity items
  | .map entries => entriesComplexity entries

def Value.complexity : Value → Nat
  | .message _ fields => fieldsComplexity fields
  | _ => 0

def totalComplexity : List Expr → Nat
  | [] => 0
  | e :: es => e.complexity + totalComplexity es

def entriesComplexity : List (Expr × Expr) → Nat
  | [] => 0
  | (k, v) :: es => k.complexity + v.complexity + entriesComplexity es

def fieldsComplexity : List (String × Expr) → Nat
  | [] => 0
  | (_, v) :: fs => v.complexity + fieldsComplexity fs

end

/-- What a filter resolves to: nothing for a filter without text. -/
structure ResolvedFilter where
  expr : Option Expr := none
  complexity : Nat := 0

namespace ResolvedFilter

def isEmpty (f : ResolvedFilter) : Bool := f.expr.isNone

/-- Drops the expression. -/
def release (_ : ResolvedFilter) : ResolvedFilter := {}

end ResolvedFilter

end ListQuery.Filter
