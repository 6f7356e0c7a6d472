/-!
The proleptic Gregorian calendar: leap years, lengths of months, and the number of a day counted
from the first of January 1970.
-/

namespace ListQuery.Time

def isLeapYear (year : Int) : Bool :=
  (year % 4 == 0 && year % 100 != 0) || year % 400 == 0

/-- Days of a month; zero for a month that there is not. -/
def daysInMonth (year : Int) (month : Nat) : Nat :=
  match month with
  | 1 | 3 | 5 | 7 | 8 | 10 | 12 => 31
  | 4 | 6 | 9 | 11 => 30
  | 2 => if isLeapYear year then 29 else 28
  | _ => 0

/-- Days of a year that lie before the first of a month. -/
def daysBeforeMonth (year : Int) : Nat → Nat
  | 0 => 0
  | 1 => 0
  | month + 2 => daysBeforeMonth year (month + 1) + daysInMonth year (month + 1)

/-- Days from the first of January of year 0 to the first of January of `year`. -/
def daysBeforeYear (year : Int) : Int :=
  let y := year - 1
  365 * year + (y.fdiv 4 - y.fdiv 100 + y.fdiv 400) + 1

/-- A day of the calendar. -/
structure Date where
  year : Int
  month : Nat
  day : Nat
deriving DecidableEq, Repr

namespace Date

def Valid (d : Date) : Prop :=
  1 ≤ d.month ∧ d.month ≤ 12 ∧ 1 ≤ d.day ∧ d.day ≤ daysInMonth d.year d.month

instance (d : Date) : Decidable d.Valid := by unfold Valid; infer_instance

/-- Days from the first of January 1970 to this day. -/
def toDays (d : Date) : Int :=
  daysBeforeYear d.year + daysBeforeMonth d.year d.month + d.day - 1 - 719528

/-- The month of a day counted from zero within its year, and the day within that month. -/
def splitYearDay (year : Int) : Nat → Nat → Nat → Nat × Nat
  | 0, month, day => (month, day + 1)
  | fuel + 1, month, day =>
    let size := daysInMonth year month
    if day < size then (month, day + 1) else splitYearDay year fuel (month + 1) (day - size)

/-- The day that lies `n` days after the first of January 1970. Within a cycle of 400 years the
estimate of the year is at most one too small, which the last step mends. -/
def ofDays (n : Int) : Date :=
  let z := n + 719528
  let cycle := z.fdiv 146097
  let dayOfCycle := z - cycle * 146097
  let low := (dayOfCycle * 400).fdiv 146097
  let low := if daysBeforeYear (low + 1) ≤ dayOfCycle then low + 1 else low
  let low := if dayOfCycle < daysBeforeYear low then low - 1 else low
  let year := cycle * 400 + low
  let (month, day) := splitYearDay year 11 1 (z - daysBeforeYear year).toNat
  ⟨year, month, day⟩

end Date

end ListQuery.Time
