/-
Moments in time with the offset of the zone they were written in. A leap second is the second
before it with more than a second of nanoseconds.
-/
import ListQuery.Text.Digits
import ListQuery.Time.Calendar

namespace ListQuery.Time

structure Timestamp where
  /-- Seconds since the start of 1970 in universal time. -/
  seconds : Int
  nanos : Nat
  /-- Seconds that local time is ahead of universal time. -/
  offset : Int
deriving DecidableEq, Repr

namespace Timestamp

def secondsPerDay : Nat := 86400

/-- Reading a text from its front. -/
abbrev Reader := StateT (List Char) Option

namespace Reader

/-- A number of exactly `n` digits. -/
def number (n : Nat) : Reader Nat := fun cs =>
  let digits := cs.take n
  if digits.length = n ∧ digits.all Char.isDigit then some (Text.ofDigits 10 digits, cs.drop n)
  else none

/-- A number of two digits up to `high`. -/
def upTo (high : Nat) : Reader Nat := do
  let n ← number 2
  if n ≤ high then pure n else failure

/-- One character of a class. -/
def oneOf (accept : Char → Bool) : Reader Char := fun cs =>
  match cs with
  | c :: cs => if accept c then some (c, cs) else none
  | [] => none

def mark (c : Char) : Reader Unit := do
  let _ ← oneOf (· == c)

/-- The nanoseconds of a fraction, if there is one. Digits behind the ninth are read and dropped. -/
def fraction : Reader Nat := fun cs =>
  match cs with
  | '.' :: cs =>
    match cs.takeWhile Char.isDigit with
    | [] => none
    | digits =>
      let kept := digits.take 9
      some (Text.ofDigits 10 kept * Nat.pow 10 (9 - kept.length), cs.dropWhile Char.isDigit)
  | cs => some (0, cs)

/-- The offset of a zone in seconds: `Z`, or hours and minutes behind a sign. -/
def zone : Reader Int := do
  let c ← oneOf fun c => c == 'Z' || c == 'z' || c == '+' || c == '-' || c == '−'
  if c = 'Z' ∨ c = 'z' then pure 0
  else
    let hours ← upTo 23
    mark ':'
    let minutes ← upTo 59
    let seconds : Int := hours * 3600 + minutes * 60
    pure (if c = '+' then seconds else -seconds)

/-- Year, month and day. -/
def date : Reader Date := do
  let year ← number 4
  mark '-'
  let month ← number 2
  mark '-'
  let day ← number 2
  let d : Date := ⟨year, month, day⟩
  if d.Valid then pure d else failure

/-- A date and a time of day with its zone. The second may be 60 in any minute. -/
def timestamp : Reader Timestamp := do
  let d ← date
  let _ ← oneOf fun c => c == 'T' || c == 't' || c == ' '
  let hour ← upTo 23
  mark ':'
  let minute ← upTo 59
  mark ':'
  let second ← upTo 60
  let nanos ← fraction
  let offset ← zone
  let (second, leap) := if second = 60 then (59, 1000000000) else (second, 0)
  let clock : Nat := hour * 3600 + minute * 60 + second
  pure ⟨d.toDays * secondsPerDay + clock - offset, nanos + leap, offset⟩

end Reader

/-- The moment that a whole text spells. -/
def parse? (text : String) : Option Timestamp :=
  match Reader.timestamp text.toList with
  | some (t, []) => some t
  | _ => none

/-- Days of years from -262143 to 262142, counted from 1970. -/
def inCalendar (days : Int) : Bool :=
  decide ((Date.mk (-262143) 1 1).toDays ≤ days) && decide (days ≤ (Date.mk 262142 12 31).toDays)

/-- A moment in universal time. More than a second of nanoseconds may stand only in the last second
of a minute. -/
def ofUnix? (seconds : Int) (nanos : Nat) : Option Timestamp :=
  if inCalendar (seconds.fdiv secondsPerDay) ∧ nanos < 2000000000 ∧
      (nanos < 1000000000 ∨ seconds % 60 = 59) then
    some ⟨seconds, nanos, 0⟩
  else none

/-! ## Rendering -/

/-- A year: four digits, or a sign and at least four digits outside of 0 to 9999. -/
def renderYear (year : Int) : String :=
  if 0 ≤ year ∧ year ≤ 9999 then Text.paddedDecimal 4 year.toNat
  else (if year < 0 then "-" else "+") ++ Text.paddedDecimal 4 year.natAbs

/-- A fraction of no, three, six or nine digits, whichever is exact first. -/
def renderFraction (nanos : Nat) : String :=
  if nanos = 0 then ""
  else if nanos % 1000000 = 0 then "." ++ Text.paddedDecimal 3 (nanos / 1000000)
  else if nanos % 1000 = 0 then "." ++ Text.paddedDecimal 6 (nanos / 1000)
  else "." ++ Text.paddedDecimal 9 nanos

def renderOffset (offset : Int) : String :=
  let minutes := offset.natAbs / 60
  (if offset < 0 then "-" else "+") ++ Text.paddedDecimal 2 (minutes / 60) ++ ":" ++
    Text.paddedDecimal 2 (minutes % 60)

/-- A moment as local date and time with its offset. -/
def render (t : Timestamp) : String :=
  let localSeconds := t.seconds + t.offset
  let d := Date.ofDays (localSeconds.fdiv secondsPerDay)
  let clock := (localSeconds % secondsPerDay).toNat
  let (second, nanos) :=
    if 1000000000 ≤ t.nanos then (clock % 60 + 1, t.nanos - 1000000000) else (clock % 60, t.nanos)
  renderYear d.year ++ "-" ++ Text.paddedDecimal 2 d.month ++ "-" ++ Text.paddedDecimal 2 d.day ++
    "T" ++ Text.paddedDecimal 2 (clock / 3600) ++ ":" ++ Text.paddedDecimal 2 (clock / 60 % 60) ++
    ":" ++ Text.paddedDecimal 2 second ++ renderFraction nanos ++ renderOffset t.offset

end Timestamp

end ListQuery.Time
