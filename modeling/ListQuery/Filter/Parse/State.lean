/-
Steps of reading a tree from tokens. A parser stands before the tokens that are left, knows where
the last token ended that it took, and has made its reports; a failure keeps the reports. Looking at
an illegal token reports it, and going back takes no report back.
-/
import ListQuery.Filter.Error
import ListQuery.Filter.Lexer
import ListQuery.Filter.Parse.Options
import ListQuery.Filter.Tree

namespace ListQuery.Filter

structure ParseState where
  /-- Tokens left, the end of the text not among them. -/
  rest : List Token
  /-- Where the text ends. -/
  finish : Position
  /-- Byte offset just past the last token taken, blanks apart. -/
  lastEnd : Nat
  log : FaultLog
  reports : List (Report SyntaxCause)

namespace ParseState

/-- A parser before a whole text. -/
def ofString (input : String) : ParseState :=
  ⟨Token.scan .start input.toList, endOf input, 0, {}, []⟩

/-- The token in front. -/
def head (s : ParseState) : Token := s.rest.headD (.eof s.finish)

/-- The state after a token has been seen. -/
def see (s : ParseState) (t : Token) : ParseState :=
  let (log, report) := s.log.see t
  { s with
    log
    reports := s.reports ++ (report.map fun r => ⟨r.pos, .fault r.cause⟩).toList }

/-- Takes the token in front. -/
def advance (s : ParseState) : ParseState :=
  { s with
    rest := s.rest.tail
    lastEnd := if s.head.kind = .whitespace ∨ s.head.kind = .eof then s.lastEnd else s.head.stop }

/-- The token after the one in front, a blank between them skipped. -/
def following (s : ParseState) : Token :=
  let after := s.advance
  if after.head.kind = .whitespace then after.advance.head else after.head

/-- Goes back to an earlier state; what has been seen stays seen. -/
def backTo (s saved : ParseState) : ParseState :=
  { s with rest := saved.rest, lastEnd := saved.lastEnd }

end ParseState

abbrev Parser := EStateM FilterError ParseState

namespace Parser

/-- The token in front, which stays. -/
def peek : Parser Token := fun s => .ok s.head (s.see s.head)

def peekKind : Parser Kind := fun s => .ok s.head.kind (s.see s.head)

/-- The token in front, which is taken. -/
def next : Parser Token := fun s => .ok s.head (s.see s.head).advance

/-- Takes the token in front if it is of a kind. -/
def eat (kind : Kind) : Parser (Option Token) := fun s =>
  if s.head.kind = kind then .ok (some s.head) (s.see s.head).advance
  else .ok none (s.see s.head)

/-- Takes a blank if there is one. -/
def skipBlank : Parser (Option Token) := eat .whitespace

def restore (saved : ParseState) : Parser Unit := fun s => .ok () (s.backTo saved)

/-- The stretch from a position to the end of the last token taken. -/
def spanFrom (start : Position) : Parser Span := fun s =>
  .ok ⟨start, max s.lastEnd start.offset⟩ s

/-- Fails with a report. -/
def fail {α : Type} (pos : Position) (cause : SyntaxCause) : Parser α := fun s =>
  .error (.invalidSyntax pos) { s with reports := s.reports ++ [⟨pos, cause⟩] }

/-- Fails at a token. An illegal one has been reported when it was seen. -/
def unexpected {α : Type} (t : Token) (what : String) : Parser α := fun s =>
  if t.kind.isIllegal then .error (.invalidSyntax t.pos) s
  else fail t.pos (.expected what t) s

/-- Takes a token that has to be of a kind. -/
def expect (kind : Kind) (what : String) : Parser Token := do
  let t ← next
  if t.kind = kind then pure t else unexpected t what

/-- Takes a token as a leaf. -/
def leaf (t : Token) (what : String) : Parser Leaf :=
  match Leaf.ofToken? t with
  | some l => pure l
  | none => unexpected t what

/-- The failure of a nesting that goes too deep. It is found before the next token is looked at. -/
def tooDeep {α : Type} (o : ParserOptions) : Parser α := fun s =>
  fail s.head.pos (.tooDeep o.maxDepth) s

/-- In strict mode exactly one blank has to stand here. -/
def requireSpace (o : ParserOptions) (blank : Option Token) (place : String) : Parser Unit := do
  if o.strictWhitespace then
    match blank with
    | some t => if t.text.length = 1 then pure () else fail t.pos (.manySpaces place)
    | none => fail (← peek).pos (.noSpace place)

/-- Skips blanks between delimiters, which strict mode does not allow. -/
def innerBlank (o : ParserOptions) (place : String) : Parser Unit := do
  match ← skipBlank with
  | some t => if o.strictWhitespace then fail t.pos (.straySpace place)
  | none => pure ()

/-- Kinds before which a keyword is a name. -/
def endsName (k : Kind) : Bool :=
  k.isComparator ||
    match k with
    | .dot | .comma | .rightParen | .rightBracket | .rightBrace | .eof => true
    | _ => false

/-- Whether the keyword in front is an operator: what comes after it cannot follow a name. -/
def keywordIsOperator : Parser Bool := fun s =>
  .ok (!endsName s.following.kind) (s.see s.following)

/-- Whether another factor starts here. -/
def startsFactor (o : ParserOptions) : Parser Bool := do
  match ← peekKind with
  | .andWord | .orWord => return !(← keywordIsOperator)
  | .minus | .leftParen | .illegal _ => pure true
  | .leftBracket => pure o.enableArrays
  | .leftBrace => pure o.enableStructs
  | kind => pure kind.isLeaf

/-! ## Repetition -/

/-- Runs a step until it gives nothing, at most `fuel` times. -/
def repeatStep {α : Type} (step : Parser (Option α)) : Nat → Parser (List α)
  | 0 => pure []
  | fuel + 1 => do
    match ← step with
    | none => pure []
    | some a => return a :: (← repeatStep step fuel)

/-- Runs a step until it gives nothing. A step that gives something takes a token, so the tokens
that are left bound the number of steps. -/
def many {α : Type} (step : Parser (Option α)) : Parser (List α) := fun s =>
  repeatStep step (s.rest.length + 1) s

/-- The delimiters of a list: the kind that closes it, how its inside is called, and what may come
after an item. -/
structure Brackets where
  close : Kind
  place : String
  expected : String

/-- Items up to the closing delimiter, at least one. -/
def itemsFrom {α : Type} (o : ParserOptions) (b : Brackets) (item : Parser α) :
    Nat → Parser (List α)
  | 0 => pure []
  | fuel + 1 => do
    let a ← item
    innerBlank o b.place
    let t ← next
    if t.kind = .comma then
      innerBlank o b.place
      return a :: (← itemsFrom o b item fuel)
    else if t.kind = b.close then return [a]
    else unexpected t b.expected

/-- Items between commas up to the closing delimiter; the opening one has been taken. -/
def delimited {α : Type} (o : ParserOptions) (b : Brackets) (item : Parser α) :
    Parser (List α) := do
  innerBlank o b.place
  match ← eat b.close with
  | some _ => pure []
  | none => fun s => itemsFrom o b item (s.rest.length + 1) s

end Parser

end ListQuery.Filter
