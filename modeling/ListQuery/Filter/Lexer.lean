/-
A lexer that is stepped by hand: it hands out the tokens of one text, looks ahead, and goes back to
places it has marked. A token that was looked at is kept until it is passed, so it is read once.
Illegal tokens are reported when they are read. A mark on how far reports have gone is never taken
back, so no token is reported twice however often the lexer goes over it.
-/
import ListQuery.Filter.Token.Tokenize

namespace ListQuery.Filter

/-- How many illegal tokens have been reported, and the offset before which all have been. -/
structure FaultLog where
  count : Nat := 0
  reportedUntil : Nat := 0
deriving DecidableEq, Repr

namespace FaultLog

/-- Takes note of a token that is seen: the log after it, and the report it calls for. -/
def see (log : FaultLog) (t : Token) : FaultLog × Option (Report Fault) :=
  match t.kind with
  | .illegal fault =>
    if log.reportedUntil ≤ t.pos.offset then
      (⟨log.count + 1, t.pos.offset + 1⟩, some ⟨t.pos, fault⟩)
    else (log, none)
  | _ => (log, none)

end FaultLog

namespace Lexer

/-- A place that a lexer can go back to. -/
structure Mark where
  position : Position
  /-- The text from there on. -/
  rest : List Char
deriving DecidableEq

/-- The token at a place, and the place behind it. -/
def Mark.ahead (m : Mark) : Token × Mark :=
  let (t, rest) := Token.front m.position m.rest
  (t, ⟨t.next, rest⟩)

end Lexer

structure Lexer where
  input : String
  /-- Where the next token starts. -/
  position : Position
  /-- The text from there on. -/
  rest : List Char
  /-- A token that was looked at and not passed, and the place behind it. -/
  peeked : Option (Token × Lexer.Mark) := none
  log : FaultLog
  /-- Reports made so far, the first one first. -/
  reports : List (Report Fault)
  /-- What was looked at is what stands in front. -/
  peeked_eq : ∀ x ∈ peeked, x = Lexer.Mark.ahead ⟨position, rest⟩ := by simp

namespace Lexer

/-- A lexer at the front of a text. -/
def ofString (input : String) : Lexer where
  input
  position := .start
  rest := input.toList
  log := {}
  reports := []

/-- Number of illegal tokens reported. -/
def errorCount (l : Lexer) : Nat := l.log.count

/-- The lexer after it has seen a token. -/
def see (l : Lexer) (t : Token) : Lexer :=
  let (log, report) := l.log.see t
  { l with log, reports := l.reports ++ report.toList }

/-- The place where the lexer stands. -/
def mark (l : Lexer) : Mark := ⟨l.position, l.rest⟩

/-- Goes to a place and forgets what it looked at; what has been reported stays so. -/
def restore (l : Lexer) (m : Mark) : Lexer :=
  { l with position := m.position, rest := m.rest, peeked := none, peeked_eq := by simp }

/-- Reads the token in front and passes it. -/
def read (l : Lexer) : Token × Lexer :=
  let (t, behind) := l.mark.ahead
  (t, (l.see t).restore behind)

/-- The next token, which is passed. -/
def scan (l : Lexer) : Token × Lexer :=
  match l.peeked with
  | some (t, behind) => (t, l.restore behind)
  | none => l.read

/-- The lexer after it has looked at the token in front, which it does once. -/
def look (l : Lexer) : Lexer :=
  if l.peeked.isSome then l
  else { l.see l.mark.ahead.1 with peeked := some l.mark.ahead, peeked_eq := by simp [see, mark] }

/-- The next token, which is passed only if it fits. -/
def peek (l : Lexer) (consume : Token → Bool) : Token × Lexer :=
  let (t, behind) := l.peeked.getD l.mark.ahead
  (t, if consume t then l.look.restore behind else l.look)

/-- Only the end of the text is passed without taking anything from it. -/
theorem Mark.ahead_length {m : Mark} (h : m.ahead.1.kind ≠ .eof) :
    m.ahead.2.rest.length < m.rest.length := by
  obtain ⟨position, rest⟩ := m
  cases rest with
  | nil => exact absurd rfl h
  | cons c cs =>
    have hle := (lexeme_suffix c cs).length_le
    exact Nat.lt_succ_of_le hle

/-- Scanning hands out the token in front and goes to the place behind it. -/
theorem scan_eq (l : Lexer) : l.scan = (l.mark.ahead.1, l.look.restore l.mark.ahead.2) := by
  unfold scan look
  cases h : l.peeked with
  | none => rfl
  | some x => rw [l.peeked_eq x h]; rfl

/-- All tokens from here on, the end of the text last. -/
def tokenize (l : Lexer) : List Token :=
  if l.scan.1.kind = .eof then [l.scan.1] else l.scan.1 :: l.scan.2.tokenize
termination_by l.rest.length
decreasing_by
  rename_i h
  rw [scan_eq] at h ⊢
  exact Mark.ahead_length h

end Lexer

end ListQuery.Filter
