/-
Failures of reading and resolving a filter. A failure says only what kind it is and where; what a
person should read goes into a report.
-/
import ListQuery.Filter.Token

namespace ListQuery.Filter

inductive FilterError where
  /-- The text is not a filter. -/
  | invalidSyntax (pos : Position)
  /-- A value does not fit its field. -/
  | invalidValue (pos : Position)
  /-- A handle leads to no node. -/
  | invalidSyntaxTree
  /-- Something that has to be given is missing. -/
  | internal (reason : String)
deriving DecidableEq, Repr

namespace FilterError

def message : FilterError → String
  | .invalidSyntax pos => "invalid filter syntax at byte " ++ Text.decimal pos.offset
  | .invalidValue pos => "invalid filter value at byte " ++ Text.decimal pos.offset
  | .invalidSyntaxTree => "invalid filter syntax tree"
  | .internal reason => "internal filter error: " ++ reason

def position? : FilterError → Option Position
  | .invalidSyntax pos => some pos
  | .invalidValue pos => some pos
  | _ => none

def isSyntax : FilterError → Bool
  | .invalidSyntax _ => true
  | _ => false

def isValue : FilterError → Bool
  | .invalidValue _ => true
  | _ => false

end FilterError

/-- Why a text is not a filter. -/
inductive SyntaxCause where
  /-- A token that is none. -/
  | fault (fault : Fault)
  /-- Another token than the one that has to come. -/
  | expected (what : String) (found : Token)
  | tooDeep (limit : Nat)
  /-- More than one blank where one has to stand. -/
  | manySpaces (place : String)
  | noSpace (place : String)
  | straySpace (place : String)
  | notIdentifier (what raw : String)
deriving DecidableEq, Repr

/-- How a token that was found is named. -/
def Token.found (t : Token) : String :=
  if t.text.isEmpty || t.kind == .whitespace then t.kind.describe else "'" ++ t.text ++ "'"

def SyntaxCause.message : SyntaxCause → String
  | .fault f => f.message
  | .expected what found => "expected " ++ what ++ ", found " ++ found.found
  | .tooDeep limit => "filter too deeply nested (max depth: " ++ Text.decimal limit ++ ")"
  | .manySpaces place => "expected a single space " ++ place
  | .noSpace place => "expected whitespace " ++ place
  | .straySpace place => "whitespace is not allowed " ++ place
  | .notIdentifier what raw => what ++ " must be an identifier, found '" ++ raw ++ "'"

end ListQuery.Filter
