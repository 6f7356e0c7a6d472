/-
The grammar of filters. Loosest first: `AND`, blanks, `OR`, then `NOT` and the dash, then
comparisons.

Expressions and comparables nest, and each level of nesting uses up one of the levels that are
allowed. So the two parsers are defined by recursion on the levels left, and all others take the two
parsers for one level less. A keyword is a name where what follows it can follow a name only.
-/
import ListQuery.Filter.Parse.State

namespace ListQuery.Filter

namespace Parser

/-- The parsers one level of nesting down. -/
structure Inner where
  expression : Parser Expression
  comparable : Parser Comparable

def composite (inner : Inner) : Parser Composite := do
  let opening ← expect .leftParen "'('"
  let _ ← skipBlank
  let expression ← inner.expression
  let _ ← skipBlank
  let _ ← expect .rightParen "')'"
  return ⟨← spanFrom opening.pos, expression⟩

def arg (inner : Inner) : Parser Arg := do
  if (← peekKind) = .leftParen then return .composite (← composite inner)
  else return .comparable (← inner.comparable)

/-- A name may hold bare words only. -/
def checkName (path : List Leaf) (what : String) : Parser Unit :=
  match path.find? fun l => !l.isIdentifier with
  | some l => fail l.pos (.notIdentifier what l.raw)
  | none => pure ()

/-- A dot and the leaf after it, if a dot comes. -/
def dottedLeaf : Parser (Option Leaf) := do
  if (← peekKind) = .dot then
    let _ ← next
    return some (← leaf (← next) "a field name after '.'")
  else return none

def inCall : Brackets := ⟨.rightParen, "inside an argument list", "',' or ')'"⟩
def inArray : Brackets := ⟨.rightBracket, "inside an array", "',' or ']'"⟩
def inStruct : Brackets := ⟨.rightBrace, "inside a struct", "',' or '\x7d'"⟩

def call (o : ParserOptions) (inner : Inner) (name : List Leaf) (start : Position) :
    Parser Call := do
  let _ ← expect .leftParen "'('"
  let args ← delimited o inCall (arg inner)
  return ⟨← spanFrom start, name, args⟩

def arrayLiteral (o : ParserOptions) (inner : Inner) : Parser ArrayLiteral := do
  let opening ← expect .leftBracket "'['"
  let elements ← delimited o inArray inner.comparable
  return ⟨← spanFrom opening.pos, elements⟩

def structEntry (o : ParserOptions) (inner : Inner) : Parser StructEntry := do
  let name ← leaf (← next) "a field name"
  innerBlank o inStruct.place
  let _ ← expect .has "':'"
  innerBlank o inStruct.place
  return ⟨name, ← inner.comparable⟩

def structLiteral (o : ParserOptions) (inner : Inner) (name : List Leaf) (start : Position) :
    Parser StructLiteral := do
  let _ ← expect .leftBrace "'\x7b'"
  let entries ← delimited o inStruct (structEntry o inner)
  return ⟨← spanFrom start, name, entries⟩

/-- A dotted run of leaves. A parenthesis or brace directly behind it makes it the name of a call
or a struct; otherwise it is a member. -/
def nameRun (o : ParserOptions) (inner : Inner) : Parser Comparable := do
  let first ← next
  let value ← leaf first "a value"
  let fields ← many dottedLeaf
  match ← peekKind with
  | .leftParen =>
    checkName (value :: fields) "function name"
    return .call (← call o inner (value :: fields) first.pos)
  | .leftBrace =>
    if o.enableStructs then
      checkName (value :: fields) "struct type name"
      return .struct (← structLiteral o inner (value :: fields) first.pos)
    else return .member ⟨← spanFrom first.pos, value, fields⟩
  | _ => return .member ⟨← spanFrom first.pos, value, fields⟩

/-- A comparable, once its level of nesting has been granted. -/
def comparableBody (o : ParserOptions) (inner : Inner) : Parser Comparable := do
  let t ← peek
  if t.kind = .leftBracket ∧ o.enableArrays = true then
    return .array (← arrayLiteral o inner)
  else if t.kind = .leftBrace ∧ o.enableStructs = true then
    return .struct (← structLiteral o inner [] t.pos)
  else if t.kind.isLeaf then nameRun o inner
  else
    let _ ← next
    unexpected t "a value"

/-! ## Expressions -/

/-- The comparator in front, if there is one. -/
def comparator? (o : ParserOptions) (t : Token) : Parser (Option Comparator) := do
  if t.kind = .inWord then
    if o.enableIn then
      if ← keywordIsOperator then return some .isIn else return none
    else return none
  else return Comparator.ofKind? t.kind

def restriction (o : ParserOptions) (inner : Inner) : Parser Restriction := do
  let start := (← peek).pos
  let comparable ← inner.comparable
  let saved ← get
  let _ ← skipBlank
  let t ← peek
  match ← comparator? o t with
  | some comparator =>
    let _ ← next
    let _ ← skipBlank
    let arg ← arg inner
    return ⟨← spanFrom start, comparable, some ⟨comparator, t.pos, arg⟩⟩
  | none =>
    restore saved
    return ⟨← spanFrom start, comparable, none⟩

/-- The operator before a term. -/
def unary (o : ParserOptions) : Parser (Option UnaryOp) := do
  match ← peekKind with
  | .notWord =>
    if ← keywordIsOperator then
      let _ ← next
      requireSpace o (← skipBlank) "after NOT"
      return some .not
    else return none
  | .minus =>
    let _ ← next
    innerBlank o "after '-'"
    return some .minus
  | _ => return none

def simple (o : ParserOptions) (inner : Inner) : Parser Simple := do
  if (← peekKind) = .leftParen then return .composite (← composite inner)
  else return .restriction (← restriction o inner)

def term (o : ParserOptions) (inner : Inner) : Parser Term := do
  let start := (← peek).pos
  let unary ← unary o
  let simple ← simple o inner
  return ⟨← spanFrom start, unary, simple, none⟩

/-- An operator word with its blanks, if it comes; the position of the word. Otherwise nothing is
taken. -/
def joiner (o : ParserOptions) (word : Kind) (before after : String) :
    Parser (Option Position) := do
  let saved ← get
  let blank ← skipBlank
  if (← peekKind) = word then
    if ← keywordIsOperator then
      requireSpace o blank before
      let t ← next
      requireSpace o (← skipBlank) after
      return some t.pos
  restore saved
  return none

/-- `OR` and the term after it, if it comes. -/
def orTerm (o : ParserOptions) (inner : Inner) : Parser (Option (Position × Term)) := do
  match ← joiner o .orWord "before OR" "after OR" with
  | some pos => return some (pos, ← term o inner)
  | none => return none

/-- Each term but the last keeps the position of the `OR` behind it. -/
def linkTerms (first : Term) : List (Position × Term) → List Term
  | [] => [first]
  | (pos, t) :: ts => { first with orPos := some pos } :: linkTerms t ts

def factor (o : ParserOptions) (inner : Inner) : Parser Factor := do
  let start := (← peek).pos
  let first ← term o inner
  let others ← many (orTerm o inner)
  return ⟨← spanFrom start, linkTerms first others⟩

/-- A blank and the factor after it, if it comes. -/
def nextFactor (o : ParserOptions) (inner : Inner) : Parser (Option Factor) := do
  let saved ← get
  match ← skipBlank with
  | none => return none
  | some blank =>
    if ← startsFactor o then
      requireSpace o (some blank) "between factors"
      return some (← factor o inner)
    else
      restore saved
      return none

def sequence (o : ParserOptions) (inner : Inner) : Parser Sequence := do
  let start := (← peek).pos
  let first ← factor o inner
  let others ← many (nextFactor o inner)
  return ⟨← spanFrom start, first :: others⟩

/-- `AND` and the sequence after it, if it comes. -/
def andSequence (o : ParserOptions) (inner : Inner) : Parser (Option Sequence) := do
  match ← joiner o .andWord "before AND" "after AND" with
  | some _ => return some (← sequence o inner)
  | none => return none

/-- An expression, once its level of nesting has been granted. -/
def expressionBody (o : ParserOptions) (inner : Inner) : Parser Expression := do
  let start := (← peek).pos
  let first ← sequence o inner
  let others ← many (andSequence o inner)
  return ⟨← spanFrom start, first :: others⟩

mutual

/-- An expression, with so many levels of nesting left. -/
def expression (o : ParserOptions) : Nat → Parser Expression
  | 0 => tooDeep o
  | levels + 1 => fun s => expressionBody o ⟨expression o levels, comparable o levels⟩ s

/-- A comparable, with so many levels of nesting left. -/
def comparable (o : ParserOptions) : Nat → Parser Comparable
  | 0 => tooDeep o
  | levels + 1 => fun s => comparableBody o ⟨expression o levels, comparable o levels⟩ s

end

/-- A whole text: an expression, or blanks alone. -/
def filter (o : ParserOptions) : Parser (Option Expression) := do
  let _ ← skipBlank
  if (← peekKind) = .eof then return none
  let root ← expression o o.maxDepth
  let _ ← skipBlank
  let t ← next
  if t.kind = .eof then
    let s ← get
    if 0 < s.log.count then throw (.invalidSyntax s.head.pos) else return some root
  else unexpected t "end of filter"

end Parser

/-- The tree of a filter, none for blanks alone, and the reports made on the way. -/
def parseReporting (o : ParserOptions) (input : String) :
    Except FilterError (Option Expression) × List (Report SyntaxCause) :=
  match Parser.filter o (.ofString input) with
  | .ok root s => (.ok root, s.reports)
  | .error e s => (.error e, s.reports)

/-- The tree of a filter, none for blanks alone. -/
def parse (o : ParserOptions) (input : String) : Except FilterError (Option Expression) :=
  (parseReporting o input).1

end ListQuery.Filter
