/-
Filters read straight into a store. A loader steps a lexer, keeps one counter of the levels of
nesting that it is in, and stores each node when its last token has been taken. A term is changed
once more when an `OR` comes behind it.

Handles are what it keeps of a node, and a handle may have less room for an index than there are
nodes; `keep` says what it keeps of one.
-/
import ListQuery.Filter.Store

namespace ListQuery.Filter

structure LoadState where
  lexer : Lexer
  /-- Byte offset just past the last token taken, blanks apart. -/
  lastEnd : Nat := 0
  /-- Levels of nesting entered and not left. -/
  depth : Nat := 0
  store : Store
  /-- Reports apart from those of the lexer. -/
  reports : List (Report SyntaxCause) := []

/-- All reports so far. A loader makes one only where it fails, so the lexer's come first. -/
def LoadState.allReports (s : LoadState) : List (Report SyntaxCause) :=
  (s.lexer.reports.map fun r => ⟨r.pos, .fault r.cause⟩) ++ s.reports

abbrev Loader := EStateM FilterError LoadState

namespace Loader

open Filter.Parser (Brackets endsName inCall inArray inStruct)

/-- The token in front, which is taken. -/
def next : Loader Token := fun s =>
  let (t, lexer) := s.lexer.scan
  .ok t { s with
    lexer
    lastEnd := if t.kind = .whitespace ∨ t.kind = .eof then s.lastEnd else t.stop }

/-- The token in front, which stays. -/
def peek : Loader Token := fun s =>
  let (t, lexer) := s.lexer.peek fun _ => false
  .ok t { s with lexer }

def peekKind : Loader Kind := do return (← peek).kind

/-- Takes the token in front if it is of a kind. -/
def eat (kind : Kind) : Loader (Option Token) := fun s =>
  let (t, lexer) := s.lexer.peek fun t => t.kind == kind
  if t.kind = kind then
    .ok (some t) { s with lexer, lastEnd := if kind = .whitespace then s.lastEnd else t.stop }
  else .ok none { s with lexer }

def skipBlank : Loader (Option Token) := eat .whitespace

/-- A place to go back to. -/
structure Checkpoint where
  mark : Lexer.Mark
  lastEnd : Nat

def checkpoint : Loader Checkpoint := fun s => .ok ⟨s.lexer.mark, s.lastEnd⟩ s

def restore (saved : Checkpoint) : Loader Unit := fun s =>
  .ok () { s with lexer := s.lexer.restore saved.mark, lastEnd := saved.lastEnd }

def spanFrom (start : Position) : Loader Span := fun s =>
  .ok ⟨start, max s.lastEnd start.offset⟩ s

def fail {α : Type} (pos : Position) (cause : SyntaxCause) : Loader α := fun s =>
  .error (.invalidSyntax pos) { s with reports := s.reports ++ [⟨pos, cause⟩] }

/-- Fails at a token. An illegal one has been reported by the lexer. -/
def unexpected {α : Type} (t : Token) (what : String) : Loader α :=
  if t.kind.isIllegal then throw (.invalidSyntax t.pos) else fail t.pos (.expected what t)

def expect (kind : Kind) (what : String) : Loader Token := do
  let t ← next
  if t.kind = kind then pure t else unexpected t what

def leaf (t : Token) (what : String) : Loader Leaf :=
  match Leaf.ofToken? t with
  | some l => pure l
  | none => unexpected t what

def enter (o : ParserOptions) : Loader Unit := fun s =>
  let s := { s with depth := s.depth + 1 }
  if o.maxDepth < s.depth then fail s.lexer.position (.tooDeep o.maxDepth) s else .ok () s

def leave : Loader Unit := fun s => .ok () { s with depth := s.depth - 1 }

def requireSpace (o : ParserOptions) (blank : Option Token) (place : String) : Loader Unit := do
  if o.strictWhitespace then
    match blank with
    | some t => if t.text.length = 1 then pure () else fail t.pos (.manySpaces place)
    | none => fail (← peek).pos (.noSpace place)

def innerBlank (o : ParserOptions) (place : String) : Loader Unit := do
  match ← skipBlank with
  | some t => if o.strictWhitespace then fail t.pos (.straySpace place)
  | none => pure ()

/-- Whether the keyword in front is an operator. What comes after it is looked at and given back. -/
def keywordIsOperator : Loader Bool := do
  let saved ← checkpoint
  let _ ← next
  let _ ← skipBlank
  let following ← peekKind
  restore saved
  return !endsName following

def startsFactor (o : ParserOptions) : Loader Bool := do
  match ← peekKind with
  | .andWord | .orWord => return !(← keywordIsOperator)
  | .minus | .leftParen | .illegal _ => pure true
  | .leftBracket => pure o.enableArrays
  | .leftBrace => pure o.enableStructs
  | kind => pure kind.isLeaf

/-- Runs a step until it gives nothing, at most `fuel` times. A step is told what was read last. -/
def repeatStep {α : Type} (step : α → Loader (Option α)) : Nat → α → Loader (List α)
  | 0, _ => pure []
  | fuel + 1, last => do
    match ← step last with
    | none => pure []
    | some a => return a :: (← repeatStep step fuel a)

/-- What a step gives behind a first one, until it gives nothing. A step that gives something takes
a part of the text, so the text that is left bounds the number of steps. -/
def many {α : Type} (step : α → Loader (Option α)) (first : α) : Loader (List α) := fun s =>
  repeatStep step (s.lexer.rest.length + 1) first s

def itemsFrom {α : Type} (o : ParserOptions) (b : Brackets) (item : Loader α) :
    Nat → Loader (List α)
  | 0 => pure []
  | fuel + 1 => do
    let a ← item
    innerBlank o b.place
    let t ← next
    if t.kind = .comma then
      innerBlank o b.place
      return a :: (← itemsFrom o b item fuel)
    else if t.kind = b.close then return [a]
    else unexpected t b.expected

/-- Items between commas up to the closing delimiter; the opening one has been taken. -/
def delimited {α : Type} (o : ParserOptions) (b : Brackets) (item : Loader α) :
    Loader (List α) := do
  innerBlank o b.place
  match ← eat b.close with
  | some _ => pure []
  | none => fun s => itemsFrom o b item (s.lexer.rest.length + 1) s

/-- Stores a node. -/
def add {k : NodeSort} (keep : Nat → Nat) (put : Store.Storing (Handle k)) : Loader (Handle k) :=
  fun s =>
    let (h, store) := put s.store
    .ok ⟨keep h.index, h.generation⟩ { s with store }

/-- Notes the `OR` behind a term that has been stored. -/
def link (h : Handle NodeSort.term) (pos : Position) : Loader Unit := fun s =>
  .ok () { s with
    store.terms := s.store.terms.modify h fun t => { t with orPos := some pos } }

/-- The loaders one level of nesting down. -/
structure Inner where
  expression : Loader (Handle NodeSort.expression)
  comparable : Loader Store.ComparableRef

variable (o : ParserOptions) (keep : Nat → Nat) (inner : Inner)

def composite : Loader (Handle NodeSort.composite) := do
  let opening ← expect .leftParen "'('"
  let _ ← skipBlank
  let expression ← inner.expression
  let _ ← skipBlank
  let _ ← expect .rightParen "')'"
  let span ← spanFrom opening.pos
  add keep (Store.putComposite ⟨span, expression⟩)

def arg : Loader Store.ArgRef := do
  if (← peekKind) = .leftParen then return .composite (← composite keep inner)
  else return .comparable (← inner.comparable)

def checkName (path : List Leaf) (what : String) : Loader Unit :=
  match path.find? fun l => !l.isIdentifier with
  | some l => fail l.pos (.notIdentifier what l.raw)
  | none => pure ()

def dottedLeaf : Loader (Option Leaf) := do
  if (← peekKind) = .dot then
    let _ ← next
    return some (← leaf (← next) "a field name after '.'")
  else return none

def call (name : List Leaf) (start : Position) : Loader (Handle NodeSort.call) := do
  let _ ← expect .leftParen "'('"
  let args ← delimited o inCall (arg keep inner)
  let span ← spanFrom start
  add keep (Store.putCall ⟨span, name, args⟩)

def arrayLiteral : Loader (Handle NodeSort.array) := do
  let opening ← expect .leftBracket "'['"
  let elements ← delimited o inArray inner.comparable
  let span ← spanFrom opening.pos
  add keep (Store.putArray ⟨span, elements⟩)

def structEntry : Loader (Leaf × Store.ComparableRef) := do
  let name ← leaf (← next) "a field name"
  innerBlank o inStruct.place
  let _ ← expect .has "':'"
  innerBlank o inStruct.place
  return (name, ← inner.comparable)

def structLiteral (name : List Leaf) (start : Position) : Loader (Handle NodeSort.struct) := do
  let _ ← expect .leftBrace "'\x7b'"
  let entries ← delimited o inStruct (structEntry o inner)
  let span ← spanFrom start
  add keep (Store.putStruct ⟨span, name, entries⟩)

def member (start : Position) (value : Leaf) (fields : List Leaf) :
    Loader Store.ComparableRef := do
  let span ← spanFrom start
  return .member (← add keep (Store.putMember ⟨span, value, fields⟩))

/-- A dotted run of leaves: the name of a call or a struct, or a member. -/
def nameRun : Loader Store.ComparableRef := do
  let first ← next
  let value ← leaf first "a value"
  let fields ← many (fun _ => dottedLeaf) value
  match ← peekKind with
  | .leftParen =>
    checkName (value :: fields) "function name"
    return .call (← call o keep inner (value :: fields) first.pos)
  | .leftBrace =>
    if o.enableStructs then
      checkName (value :: fields) "struct type name"
      return .struct (← structLiteral o keep inner (value :: fields) first.pos)
    else member keep first.pos value fields
  | _ => member keep first.pos value fields

def comparableBody : Loader Store.ComparableRef := do
  let t ← peek
  if t.kind = .leftBracket ∧ o.enableArrays = true then
    return .array (← arrayLiteral o keep inner)
  else if t.kind = .leftBrace ∧ o.enableStructs = true then
    return .struct (← structLiteral o keep inner [] t.pos)
  else if t.kind.isLeaf then nameRun o keep inner
  else
    let _ ← next
    unexpected t "a value"

/-! ## Expressions -/

def comparator? (t : Token) : Loader (Option Comparator) := do
  if t.kind = .inWord then
    if o.enableIn then
      if ← keywordIsOperator then return some .isIn else return none
    else return none
  else return Comparator.ofKind? t.kind

def restriction : Loader (Handle NodeSort.restriction) := do
  let start := (← peek).pos
  let comparable ← inner.comparable
  let saved ← checkpoint
  let _ ← skipBlank
  let t ← peek
  match ← comparator? o t with
  | some comparator =>
    let _ ← next
    let _ ← skipBlank
    let arg ← arg keep inner
    let span ← spanFrom start
    add keep (Store.putRestriction ⟨span, comparable, some ⟨comparator, t.pos, arg⟩⟩)
  | none =>
    restore saved
    let span ← spanFrom start
    add keep (Store.putRestriction ⟨span, comparable, none⟩)

def unary : Loader (Option UnaryOp) := do
  match ← peekKind with
  | .notWord =>
    if ← keywordIsOperator then
      let _ ← next
      requireSpace o (← skipBlank) "after NOT"
      return some .not
    else return none
  | .minus =>
    let _ ← next
    innerBlank o "after '-'"
    return some .minus
  | _ => return none

def simple : Loader Store.SimpleRef := do
  if (← peekKind) = .leftParen then return .composite (← composite keep inner)
  else return .restriction (← restriction o keep inner)

def term : Loader (Handle NodeSort.term) := do
  let start := (← peek).pos
  let unary ← unary o
  let simple ← simple o keep inner
  let span ← spanFrom start
  add keep (Store.putTerm ⟨span, unary, simple, none⟩)

/-- An operator word with its blanks, if it comes; `note` is told where it stands. Otherwise nothing
is taken. -/
def joiner (word : Kind) (before after : String) (note : Position → Loader Unit) :
    Loader Bool := do
  let saved ← checkpoint
  let blank ← skipBlank
  if (← peekKind) = word then
    if ← keywordIsOperator then
      requireSpace o blank before
      note (← next).pos
      requireSpace o (← skipBlank) after
      return true
  restore saved
  return false

/-- `OR` and the term after it, if it comes behind a term. -/
def orTerm (last : Handle NodeSort.term) : Loader (Option (Handle NodeSort.term)) := do
  if ← joiner o .orWord "before OR" "after OR" (link last) then
    return some (← term o keep inner)
  else return none

def factor : Loader (Handle NodeSort.factor) := do
  let start := (← peek).pos
  let first ← term o keep inner
  let others ← many (orTerm o keep inner) first
  let span ← spanFrom start
  add keep (Store.putFactor ⟨span, first :: others⟩)

def nextFactor : Loader (Option (Handle NodeSort.factor)) := do
  let saved ← checkpoint
  match ← skipBlank with
  | none => return none
  | some blank =>
    if ← startsFactor o then
      requireSpace o (some blank) "between factors"
      return some (← factor o keep inner)
    else
      restore saved
      return none

def sequence : Loader (Handle NodeSort.sequence) := do
  let start := (← peek).pos
  let first ← factor o keep inner
  let others ← many (fun _ => nextFactor o keep inner) first
  let span ← spanFrom start
  add keep (Store.putSequence ⟨span, first :: others⟩)

def andSequence : Loader (Option (Handle NodeSort.sequence)) := do
  if ← joiner o .andWord "before AND" "after AND" (fun _ => pure ()) then
    return some (← sequence o keep inner)
  else return none

/-- An expression whose level has been entered. -/
def expressionBody : Loader (Handle NodeSort.expression) := do
  let start := (← peek).pos
  let first ← sequence o keep inner
  let others ← many (fun _ => andSequence o keep inner) first
  leave
  let span ← spanFrom start
  add keep (Store.putExpression ⟨span, first :: others⟩)

/-! Each nesting enters a level, so one step of fuel more than there are levels is never used up. -/

mutual

def expression : Nat → Loader (Handle NodeSort.expression)
  | 0 => throw (.internal "nesting without end")
  | fuel + 1 => fun s => (do
    enter o
    expressionBody o keep ⟨expression fuel, comparable fuel⟩ : Loader _) s

def comparable : Nat → Loader Store.ComparableRef
  | 0 => throw (.internal "nesting without end")
  | fuel + 1 => fun s => (do
    enter o
    let c ← comparableBody o keep ⟨expression fuel, comparable fuel⟩
    leave
    return c : Loader _) s

end

/-- A whole text: an expression, which becomes the root, or blanks alone. -/
def filter : Loader Unit := do
  let _ ← skipBlank
  if (← peekKind) = .eof then return ()
  let root ← expression o keep (o.maxDepth + 1)
  let _ ← skipBlank
  let t ← next
  if t.kind = .eof then
    let s ← get
    if 0 < s.lexer.errorCount then throw (.invalidSyntax s.lexer.position)
    else set { s with store.root := some root }
  else unexpected t "end of filter"

end Loader

namespace Store

/-- Reads a filter into an emptied store, with the reports made on the way. -/
def reparseReporting (keep : Nat → Nat) (s : Store) (o : ParserOptions) (input : String) :
    Except FilterError Store × List (Report SyntaxCause) :=
  match Loader.filter o keep { lexer := .ofString input, store := s.release } with
  | .ok _ s' => (.ok s'.store, s'.allReports)
  | .error e s' => (.error e, s'.allReports)

/-- Reads a filter into an emptied store. -/
def reparse (s : Store) (o : ParserOptions) (input : String) : Except FilterError Store :=
  (s.reparseReporting id o input).1

/-- Reads a filter into an emptied store whose handles have 32 bits for an index. -/
def reparse32 (s : Store) (o : ParserOptions) (input : String) : Except FilterError Store :=
  (s.reparseReporting (fun i => (UInt32.ofNat i).toNat) o input).1

end Store

end ListQuery.Filter
