/-
The token at the front of a text, taken as long as it can be. `lexeme` answers its kind and the
text that is left.

A number-like text is tried as a radix literal, a timestamp, a plain number and last a duration. A
literal that breaks off becomes an illegal token that takes in the rest of the word.
-/
import ListQuery.Filter.Token
import ListQuery.Time.Calendar
import ListQuery.Time.TimeUnit

namespace ListQuery.Filter

open Text Time

/-- A kind and the text left behind the token. -/
abbrev Lexeme := Kind × List Char

namespace Lexeme

/-- An illegal token takes in the rest of the word in which the literal breaks off. -/
def illegal (fault : Fault) (rest : List Char) : Lexeme :=
  (.illegal fault, rest.dropWhile isWordChar)

/-- Whether a word goes on here. -/
def startsWord (cs : List Char) : Bool :=
  cs.head?.any isWordChar

/-- The kind of a whole word. -/
def wordKind (word : String) : Kind :=
  match word with
  | "AND" => .andWord
  | "OR" => .orWord
  | "NOT" => .notWord
  | "IN" => .inWord
  | "true" => .bool
  | "false" => .bool
  | "null" => .null
  | _ => .text

/-- A word that starts with `c`. -/
def word (c : Char) (cs : List Char) : Lexeme :=
  (wordKind (String.ofList (c :: cs.takeWhile isWordChar)), cs.dropWhile isWordChar)

/-- A string after its opening quote. A backslash keeps the next character from closing it. -/
def string (quote : Char) : List Char → Lexeme
  | [] => (.illegal .unterminatedString, [])
  | '\\' :: [] => (.illegal .unterminatedString, [])
  | '\\' :: _ :: cs => string quote cs
  | c :: cs => if c = quote then (.string, cs) else string quote cs

/-- Reading the parts of a timestamp; a failure keeps the text at which it happened. -/
abbrev Reader := EStateM Fault (List Char)

namespace Reader

/-- One character of a class. -/
def expect (accept : Char → Bool) (fault : Fault) : Reader Unit := fun cs =>
  match cs with
  | c :: r => if accept c then .ok () r else .error fault cs
  | [] => .error fault []

/-- A number of two digits. -/
def twoDigits (fault : Fault) : Reader Nat := fun cs =>
  match cs with
  | a :: b :: r => if a.isDigit && b.isDigit then .ok (ofDigits 10 [a, b]) r else .error fault cs
  | _ => .error fault cs

/-- A number of two digits in a range. -/
def ranged (invalid outside : Fault) (low high : Nat) : Reader Nat := do
  let n ← twoDigits invalid
  if low ≤ n ∧ n ≤ high then pure n else throw outside

/-- The optional fraction of a second, one to nine digits after a point. -/
def fraction : Reader Unit := fun cs =>
  match cs with
  | '.' :: r =>
    let count := (r.takeWhile Char.isDigit).length
    if 1 ≤ count ∧ count ≤ 9 then .ok () (r.dropWhile Char.isDigit)
    else .error .invalidFraction (r.dropWhile Char.isDigit)
  | _ => .ok () cs

/-- The time zone: `Z`, or a signed offset of hours and minutes. -/
def zone : Reader Unit := fun cs =>
  match cs with
  | c :: r =>
    if c = 'Z' ∨ c = 'z' then .ok () r
    else if c = '+' ∨ c = '-' then
      (do
        let _ ← ranged .invalidOffsetHour .offsetHourRange 0 23
        expect (· == ':') .noColonInOffset
        let _ ← ranged .invalidOffsetMinute .offsetMinuteRange 0 59
        pure () : Reader Unit) r
    else .error .noTimeZone cs
  | [] => .error .noTimeZone []

/-- What follows the year and its dash. -/
def afterYear (year : Nat) : Reader Unit := do
  let month ← ranged .invalidMonth .monthRange 1 12
  expect (· == '-') .noDashAfterMonth
  let _ ← ranged .invalidDay .dayRange 1 (daysInMonth year month)
  expect (fun c => c == 'T' || c == 't') .noTimeMark
  let _ ← ranged .invalidHour .hourRange 0 23
  expect (· == ':') .noColonAfterHour
  let _ ← ranged .invalidMinute .minuteRange 0 59
  expect (· == ':') .noColonAfterMinute
  let _ ← ranged .invalidSecond .secondRange 0 59
  fraction
  zone

end Reader

/-- A timestamp after its year and the dash behind it. -/
def timestamp (year : Nat) (cs : List Char) : Lexeme :=
  match Reader.afterYear year cs with
  | .ok _ rest => if startsWord rest then illegal .afterTimestamp rest else (.timestamp, rest)
  | .error fault rest => illegal fault rest

/-! ## Numbers and durations -/

/-- What follows a fraction, if the text starts with one. -/
def fraction? : List Char → Option (List Char)
  | '.' :: d :: cs => if d.isDigit then some (cs.dropWhile Char.isDigit) else none
  | _ => none

/-- What follows an exponent, if the text starts with one. -/
def exponent? : List Char → Option (List Char)
  | e :: s :: cs =>
    if e = 'e' ∨ e = 'E' then
      if s = '+' ∨ s = '-' then
        match cs with
        | d :: cs => if d.isDigit then some (cs.dropWhile Char.isDigit) else none
        | [] => none
      else if s.isDigit then some (cs.dropWhile Char.isDigit) else none
    else none
  | _ => none

theorem fraction?_suffix {cs r : List Char} (h : fraction? cs = some r) : r <:+ cs := by
  unfold fraction? at h
  split at h
  · rename_i d cs
    split at h
    · cases h
      exact ((List.dropWhile_suffix _).trans (List.suffix_cons _ _)).trans (List.suffix_cons _ _)
    · cases h
  · cases h

theorem exponent?_suffix {cs r : List Char} (h : exponent? cs = some r) : r <:+ cs := by
  unfold exponent? at h
  split at h
  · rename_i e s cs
    have hs : cs <:+ e :: s :: cs := (List.suffix_cons _ _).trans (List.suffix_cons _ _)
    split at h
    · split at h
      · split at h
        · split at h
          · cases h
            exact ((List.dropWhile_suffix _).trans (List.suffix_cons _ _)).trans hs
          · cases h
        · cases h
      · split at h
        · cases h
          exact (List.dropWhile_suffix _).trans hs
        · cases h
    · cases h
  · cases h

theorem unit_suffix {cs r : List Char} {u : TimeUnit} (h : TimeUnit.read? cs = some (u, r)) :
    r <:+ cs := by
  unfold TimeUnit.read? at h
  split at h <;> simp only [Option.some.injEq, Prod.mk.injEq, reduceCtorEq] at h <;>
    first
      | exact h.2 ▸ (List.suffix_cons _ _).trans (List.suffix_cons _ _)
      | exact h.2 ▸ List.suffix_cons _ _

/-- What is left behind the digits of a number, and whether a fraction is among them. -/
def decimalEnd (cs : List Char) : List Char × Bool :=
  let rest := cs.dropWhile Char.isDigit
  match fraction? rest with
  | some after => (after, true)
  | none => (rest, false)

theorem decimalEnd_suffix (cs : List Char) : (decimalEnd cs).1 <:+ cs := by
  simp only [decimalEnd]
  split
  · rename_i h
    exact (fraction?_suffix h).trans (List.dropWhile_suffix _)
  · exact List.dropWhile_suffix _

/-- A duration whose first number has been read; `unit` stands at the front of `here`, and `rest`
is what follows it. Units go strictly down, and no component has a fraction after a unit below the
second. -/
def duration (previous : Option TimeUnit) (fractional : Bool) (unit : TimeUnit)
    (here rest : List Char) : Lexeme :=
  if previous.any (fun p => decide (p.rank ≤ unit.rank)) then illegal .unitsNotDescending here
  else if fractional && previous.any TimeUnit.isSubsecond then illegal .fractionAfterSubsecond here
  else
    match rest with
    | [] => (.duration, [])
    | c :: cs =>
      if c.isDigit then
        match _h : TimeUnit.read? (decimalEnd cs).1 with
        | some (next, after) =>
          duration (some unit) (decimalEnd cs).2 next (decimalEnd cs).1 after
        | none => illegal .missingUnit (decimalEnd cs).1
      else if isWordChar c then illegal .unknownUnit (c :: cs)
      else (.duration, c :: cs)
termination_by rest.length
decreasing_by
  have h1 := TimeUnit.length_of_read? _h
  have h2 := (decimalEnd_suffix cs).length_le
  simp only [List.length_cons]
  omega

/-- A literal in another base, after its mark. -/
def radix (kind : Kind) (isDigit : Char → Bool) (cs : List Char) : Lexeme :=
  if cs.head?.any isDigit then
    let rest := cs.dropWhile isDigit
    if startsWord rest then illegal .malformedNumber rest else (kind, rest)
  else illegal .noRadixDigits cs

/-- The kind of a run of decimal digits: octal with a leading zero and octal digits only. -/
def runKind (digits : List Char) : Kind :=
  if 1 < digits.length ∧ digits.head? = some '0' ∧ digits.all isOctalDigit then .oct else .int

/-- A number or a duration, its sign and the run of digits read. -/
def decimal (digits rest : List Char) : Lexeme :=
  let fractional := (fraction? rest).isSome
  let rest := (fraction? rest).getD rest
  let scaled := (exponent? rest).isSome
  let rest := (exponent? rest).getD rest
  match TimeUnit.read? rest with
  | some (unit, after) =>
    if scaled then illegal .exponentInDuration rest else duration none fractional unit rest after
  | none =>
    if startsWord rest then illegal .malformedNumber rest
    else (if fractional || scaled then .numeric else runKind digits, rest)

/-- A number after its sign; `d` is its first digit. -/
def number (negative : Bool) (d : Char) (cs : List Char) : Lexeme :=
  match d, cs with
  | '0', 'x' :: r => radix .hex isHexDigit r
  | '0', 'X' :: r => radix .hex isHexDigit r
  | '0', 'o' :: r => radix .oct isOctalDigit r
  | '0', 'O' :: r => radix .oct isOctalDigit r
  | _, _ =>
    let digits := d :: cs.takeWhile Char.isDigit
    match cs.dropWhile Char.isDigit with
    | '-' :: r =>
      if !negative && digits.length == 4 then timestamp (ofDigits 10 digits) r
      else decimal digits ('-' :: r)
    | rest => decimal digits rest

/-- A token that starts with punctuation, or with a character that starts none. -/
def symbol (c : Char) (cs : List Char) : Lexeme :=
  match c, cs with
  | '(', _ => (.leftParen, cs)
  | ')', _ => (.rightParen, cs)
  | '[', _ => (.leftBracket, cs)
  | ']', _ => (.rightBracket, cs)
  | '\x7b', _ => (.leftBrace, cs)
  | '\x7d', _ => (.rightBrace, cs)
  | ',', _ => (.comma, cs)
  | '.', _ => (.dot, cs)
  | '-', _ => (.minus, cs)
  | ':', _ => (.has, cs)
  | '=', _ => (.equals, cs)
  | '<', '=' :: r => (.lessEquals, r)
  | '<', _ => (.lessThan, cs)
  | '>', '=' :: r => (.greaterEquals, r)
  | '>', _ => (.greaterThan, cs)
  | '!', '=' :: r => (.notEquals, r)
  | _, _ =>
    (.illegal (.unexpectedCharacter c), if isWordChar c then cs.dropWhile isWordChar else cs)

/-- A token that starts with a dash: a negative number, or the dash alone. -/
def dash : List Char → Lexeme
  | d :: cs => if d.isDigit then number true d cs else symbol '-' (d :: cs)
  | [] => symbol '-' []

end Lexeme

open Lexeme in
/-- The token at the front of the text `c :: cs`. -/
def lexeme (c : Char) (cs : List Char) : Lexeme :=
  if isWhite c then (.whitespace, cs.dropWhile isWhite)
  else if c.isDigit then number false c cs
  else if c = '-' then dash cs
  else if c = '"' ∨ c = '\'' then string c cs
  else if isWordStart c then word c cs
  else symbol c cs

end ListQuery.Filter
