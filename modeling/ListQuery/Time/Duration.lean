/-
Durations: a count of nanoseconds, at most as many as fit a signed word of 64 bits when counted in
milliseconds. A duration is written as components with falling units (`1h30m`), and rendered as
seconds.
-/
import ListQuery.Text.Digits
import ListQuery.Time.TimeUnit

namespace ListQuery.Time

/-- The largest count of nanoseconds. -/
def maxNanos : Nat := 9223372036854775807 * 1000000

def nanosPerSecond : Nat := 1000000000

structure Duration where
  nanos : Int
  inRange : nanos.natAbs ≤ maxNanos
deriving DecidableEq, Repr

namespace Duration

def ofNanos? (n : Int) : Option Duration :=
  if h : n.natAbs ≤ maxNanos then some ⟨n, h⟩ else none

/-- Whole seconds, and nanoseconds that make up less than one more. -/
def ofParts? (seconds : Int) (nanos : Nat) : Option Duration :=
  if nanos < nanosPerSecond then ofNanos? (seconds * nanosPerSecond + nanos) else none

/-- Seconds and nanoseconds that count on their own, the seconds within the range too. -/
def ofSum? (seconds nanos : Int) : Option Duration :=
  (ofNanos? (seconds * nanosPerSecond)).bind fun d => ofNanos? (d.nanos + nanos)

def neg (d : Duration) : Duration := ⟨-d.nanos, by simpa using d.inRange⟩

/-- One number with its unit; none of the fraction's digits are there when it has none. -/
structure Component where
  whole : List Char
  fraction : List Char
  unit : TimeUnit
deriving DecidableEq, Repr

/-- Digits of a fraction behind this many are cut off. -/
def fractionDigits : Nat := 18

/-- The length of a component in nanoseconds, rounded down. -/
def Component.nanos (c : Component) : Nat :=
  let digits := c.fraction.take fractionDigits
  Text.ofDigits 10 c.whole * c.unit.nanos +
    Text.ofDigits 10 digits * c.unit.nanos / Nat.pow 10 digits.length

/-- The digits behind a point, if the text starts with one, and the text behind them; none when a
point has no digit behind it. -/
def fraction? : List Char → Option (List Char × List Char)
  | '.' :: cs =>
    match cs.takeWhile Char.isDigit with
    | [] => none
    | ds => some (ds, cs.dropWhile Char.isDigit)
  | cs => some ([], cs)

/-- The component at the front of a text, and the text behind it. -/
def component? (cs : List Char) : Option (Component × List Char) :=
  match cs.takeWhile Char.isDigit with
  | [] => none
  | whole =>
    match fraction? (cs.dropWhile Char.isDigit) with
    | none => none
    | some (fraction, rest) =>
      match TimeUnit.read? rest with
      | none => none
      | some (unit, rest) => some (⟨whole, fraction, unit⟩, rest)

/-- Whether a component may follow one with this unit: a smaller unit, and no fraction after a unit
below the second. -/
def Component.follows (c : Component) (previous : TimeUnit) : Bool :=
  decide (c.unit.rank < previous.rank) && (c.fraction.isEmpty || !previous.isSubsecond)

theorem length_of_fraction? {cs ds r : List Char} (h : fraction? cs = some (ds, r)) :
    r.length ≤ cs.length := by
  unfold fraction? at h
  split at h
  · rename_i cs
    split at h
    · cases h
    · cases h
      exact Nat.le_trans (List.dropWhile_suffix _).length_le (by simp)
  · cases h
    exact Nat.le_refl _

theorem length_of_component? {cs r : List Char} {c : Component}
    (h : component? cs = some (c, r)) : r.length < cs.length := by
  unfold component? at h
  split at h
  · cases h
  · split at h
    · cases h
    · rename_i hf
      split at h
      · cases h
      · rename_i hu
        cases h
        have h1 := TimeUnit.length_of_read? hu
        have h2 := length_of_fraction? hf
        have h3 := (List.dropWhile_suffix (l := cs) Char.isDigit).length_le
        omega

/-- All components of a text, each following the one before. -/
def components? (previous : Option TimeUnit) (cs : List Char) : Option (List Component) :=
  match cs with
  | [] => some []
  | c :: cs =>
    match _h : component? (c :: cs) with
    | none => none
    | some (first, rest) =>
      if previous.all first.follows then
        (components? (some first.unit) rest).map (first :: ·)
      else none
termination_by cs.length
decreasing_by exact length_of_component? _h

/-- The total length of components. -/
def totalNanos : List Component → Nat
  | [] => 0
  | c :: cs => c.nanos + totalNanos cs

/-- The duration that a text without its sign spells: at least one component. -/
def unsigned? (negative : Bool) (cs : List Char) : Option Duration :=
  match components? none cs with
  | none | some [] => none
  | some components =>
    let total : Int := totalNanos components
    ofNanos? (if negative then -total else total)

/-- The duration that a text spells, a minus sign before all of it at will. -/
def parse? (text : String) : Option Duration :=
  match text.toList with
  | '-' :: cs => unsigned? true cs
  | cs => unsigned? false cs

/-! ## Rendering -/

/-- Digits without the zeros at their end. -/
def trimZeros (digits : List Char) : List Char :=
  (digits.reverse.dropWhile (· == '0')).reverse

/-- A duration as seconds, with as many digits of a fraction as it needs. -/
def render (d : Duration) : String :=
  let total := d.nanos.natAbs
  let sign := if d.nanos < 0 then "-" else ""
  let seconds := Text.decimal (total / nanosPerSecond)
  let nanos := total % nanosPerSecond
  if nanos = 0 then sign ++ seconds ++ "s"
  else
    let fraction := trimZeros (Text.paddedDecimal 9 nanos).toList
    sign ++ seconds ++ "." ++ String.ofList fraction ++ "s"

end Duration

end ListQuery.Time
