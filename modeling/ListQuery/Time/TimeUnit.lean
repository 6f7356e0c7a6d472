/-!
Units of a duration literal. A unit is read as the longest spelling at the front of a text, so
`ms` is never a minute.
-/

namespace ListQuery.Time

inductive TimeUnit where
  | hour | minute | second | millisecond | microsecond | nanosecond
deriving DecidableEq, Repr

namespace TimeUnit

/-- Rank by size; a larger unit has a larger rank. -/
def rank : TimeUnit → Nat
  | .hour => 5
  | .minute => 4
  | .second => 3
  | .millisecond => 2
  | .microsecond => 1
  | .nanosecond => 0

/-- Length in nanoseconds. -/
def nanos : TimeUnit → Nat
  | .hour => 3600000000000
  | .minute => 60000000000
  | .second => 1000000000
  | .millisecond => 1000000
  | .microsecond => 1000
  | .nanosecond => 1

def isSubsecond (u : TimeUnit) : Bool :=
  decide (u.rank < TimeUnit.second.rank)

/-- The unit at the front of a text, and what follows it. Both the micro sign and the Greek letter
mu spell microseconds. -/
def read? : List Char → Option (TimeUnit × List Char)
  | 'n' :: 's' :: r => some (.nanosecond, r)
  | 'u' :: 's' :: r => some (.microsecond, r)
  | 'µ' :: 's' :: r => some (.microsecond, r)
  | 'μ' :: 's' :: r => some (.microsecond, r)
  | 'm' :: 's' :: r => some (.millisecond, r)
  | 'h' :: r => some (.hour, r)
  | 'm' :: r => some (.minute, r)
  | 's' :: r => some (.second, r)
  | _ => none

theorem length_of_read? {cs r : List Char} {u : TimeUnit} (h : read? cs = some (u, r)) :
    r.length < cs.length := by
  unfold read? at h
  split at h <;> simp only [Option.some.injEq, Prod.mk.injEq, reduceCtorEq] at h <;>
    simp only [← h.2, List.length_cons] <;> omega

end TimeUnit

end ListQuery.Time
