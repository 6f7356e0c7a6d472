/-
Syntax trees of filters, as the grammar has them and without meaning.

An expression is a run of sequences joined by `AND`, a sequence a run of factors with blanks between
them, a factor a run of terms joined by `OR`. A term is a restriction or an expression in
parentheses, with `NOT` or a dash before it at will. A restriction is a comparable, alone or
compared with an argument. A comparable is a member, a call, a struct literal or an array literal.
Each node keeps the stretch of text that it was read from.
-/
import ListQuery.Filter.Quoted
import ListQuery.Filter.Token

namespace ListQuery.Filter

/-- A token that is a value, a field or a name. -/
structure Leaf where
  token : Token
  leaf : token.kind.isLeaf = true
deriving DecidableEq, Repr

namespace Leaf

def ofToken? (t : Token) : Option Leaf :=
  if h : t.kind.isLeaf = true then some ⟨t, h⟩ else none

def pos (l : Leaf) : Position := l.token.pos

def kind (l : Leaf) : Kind := l.token.kind

/-- The text as written, quotes included. -/
def raw (l : Leaf) : String := l.token.text

/-- The text without quoting. -/
def unquoted (l : Leaf) : String :=
  if l.kind = .string then Quoted.value l.raw else l.raw

/-- Bare words, which can name a field. -/
def isIdentifier (l : Leaf) : Bool := l.kind == .text || l.kind.isKeyword

/-- Byte offset just past the leaf. -/
def stop (l : Leaf) : Nat := l.token.stop

end Leaf

inductive Comparator where
  | equals | notEquals | lessThan | lessEquals | greaterThan | greaterEquals | has | isIn
deriving DecidableEq, Repr

namespace Comparator

def ofKind? : Kind → Option Comparator
  | .equals => some .equals
  | .notEquals => some .notEquals
  | .lessThan => some .lessThan
  | .lessEquals => some .lessEquals
  | .greaterThan => some .greaterThan
  | .greaterEquals => some .greaterEquals
  | .has => some .has
  | .inWord => some .isIn
  | _ => none

/-- The kind of token that writes a comparator. -/
def kind : Comparator → Kind
  | .equals => .equals
  | .notEquals => .notEquals
  | .lessThan => .lessThan
  | .lessEquals => .lessEquals
  | .greaterThan => .greaterThan
  | .greaterEquals => .greaterEquals
  | .has => .has
  | .isIn => .inWord

def text : Comparator → String
  | .equals => "="
  | .notEquals => "!="
  | .lessThan => "<"
  | .lessEquals => "<="
  | .greaterThan => ">"
  | .greaterEquals => ">="
  | .has => ":"
  | .isIn => "IN"

theorem ofKind?_kind (c : Comparator) : ofKind? c.kind = some c := by cases c <;> rfl

end Comparator

inductive UnaryOp where
  | minus | not
deriving DecidableEq, Repr

/-- A dotted run of leaves that starts with a value. -/
structure Member where
  span : Span
  value : Leaf
  fields : List Leaf
deriving DecidableEq, Repr

/-- All leaves of a member. -/
def Member.path (m : Member) : List Leaf := m.value :: m.fields

mutual

structure Expression where
  span : Span
  sequences : List Sequence

structure Sequence where
  span : Span
  factors : List Factor

structure Factor where
  span : Span
  terms : List Term

structure Term where
  span : Span
  unary : Option UnaryOp
  simple : Simple
  /-- Where the `OR` stands that follows this term. -/
  orPos : Option Position

inductive Simple where
  | restriction (r : Restriction)
  | composite (c : Composite)

structure Restriction where
  span : Span
  comparable : Comparable
  comparison : Option Comparison

structure Comparison where
  comparator : Comparator
  pos : Position
  arg : Arg

/-- An expression in parentheses. -/
structure Composite where
  span : Span
  expression : Expression

inductive Comparable where
  | member (m : Member)
  | call (c : Call)
  | struct (s : StructLiteral)
  | array (a : ArrayLiteral)

inductive Arg where
  | composite (c : Composite)
  | comparable (c : Comparable)

structure Call where
  span : Span
  name : List Leaf
  args : List Arg

/-- `Name{field: value}`; without a name it is a map. -/
structure StructLiteral where
  span : Span
  name : List Leaf
  entries : List StructEntry

structure StructEntry where
  name : Leaf
  value : Comparable

structure ArrayLiteral where
  span : Span
  elements : List Comparable

end

namespace Comparable

def span : Comparable → Span
  | .member m => m.span
  | .call c => c.span
  | .struct s => s.span
  | .array a => a.span

end Comparable

def Arg.span : Arg → Span
  | .composite c => c.span
  | .comparable c => c.span

/-- How leaves are written. -/
inductive Quoting where
  /-- Strings keep their quotes and escapes. -/
  | quoted
  /-- Strings are written as the text they stand for. -/
  | unquoted
deriving DecidableEq, Repr

def Leaf.write (q : Quoting) (l : Leaf) : String :=
  match q with
  | .quoted => l.raw
  | .unquoted => l.unquoted

/-- A dotted name as one text. -/
def joinPath (q : Quoting) (path : List Leaf) : String :=
  String.intercalate "." (path.map (Leaf.write q))

end ListQuery.Filter
