/-
The shortest decimal of a number: the fewest digits that no other number is nearer to, and of those
digits the ones nearest to the number. A layout then says where digits stand plainly and where an
exponent is written.
-/
import ListQuery.Number.Binary64

namespace ListQuery.Number

/-- A decimal `0.d₁d₂… * 10 ^ point`, written by its digits as one number. -/
structure Decimal where
  digits : Nat
  point : Int
deriving DecidableEq, Repr

/-- Where two decimals of a length are equally near, one of these is taken. -/
inductive Tie where
  | up | even
deriving DecidableEq, Repr

namespace Decimal

open Binary64 (leading)

/-- One, in the units of a cell. -/
def cellUnit : Nat := Nat.pow 2 1076

/-- The interval of reals, in units of `2 ^ -1076`, that round to the number of magnitude `m`; its
ends belong to it when the significand is even. -/
structure Cell where
  low : Nat
  value : Nat
  high : Nat
  closed : Bool

def Cell.contains (c : Cell) (num den : Nat) : Bool :=
  if c.closed then decide (c.low * den ≤ num) && decide (num ≤ c.high * den)
  else decide (c.low * den < num) && decide (num < c.high * den)

/-- The cell of a finite number that is not zero. Below a power of two the neighbours lie closer. -/
def cell (x : Binary64) : Cell :=
  let unit := Nat.pow 2 x.scale
  let value := 4 * x.significand * unit
  let low := if x.significand = leading ∧ x.scale ≠ 0 then value - unit else value - 2 * unit
  ⟨low, value, value + 2 * unit, x.significand % 2 == 0⟩

/-- The least `point` with `value / 2 ^ 1076 < 10 ^ point`, searched upward from `start`. -/
def pointFrom (value : Nat) : Nat → Int → Int
  | 0, p => p
  | fuel + 1, p =>
    let below :=
      if 0 ≤ p then decide (value < Nat.pow 10 p.toNat * cellUnit)
      else decide (value * Nat.pow 10 (-p).toNat < cellUnit)
    if below then p else pointFrom value fuel (p + 1)

/-- The position of the decimal point. The binary logarithm gives an estimate that is never too
large. -/
def pointOf (value : Nat) : Int :=
  let log : Int := (Nat.log2 value : Int) - 1076
  pointFrom value 4 ((log * 30103).fdiv 100000 - 1)

/-- Digits that have been counted up, `n` of them: the point moves where one more is needed. -/
def carried (n digits : Nat) (point : Int) : Decimal :=
  if digits = Nat.pow 10 n then ⟨Nat.pow 10 (n - 1), point + 1⟩ else ⟨digits, point⟩

/-- The decimal of `n` digits nearest to the number among those in its cell, if there is one. -/
def ofLength? (c : Cell) (point : Int) (tie : Tie) (n : Nat) : Option Decimal :=
  let place : Int := point - n
  -- One step of the grid is `step / parts` units.
  let step := if 0 ≤ place then Nat.pow 10 place.toNat * cellUnit else cellUnit
  let parts := if 0 ≤ place then 1 else Nat.pow 10 (-place).toNat
  let below := c.value * parts / step
  let above := below + 1
  let fits (k : Nat) : Bool := k != 0 && c.contains (k * step) parts
  let gapBelow := c.value * parts - below * step
  let gapAbove := above * step - c.value * parts
  match fits below, fits above with
  | false, false => none
  | true, false => some ⟨below, point⟩
  | false, true => some (carried n above point)
  | true, true =>
    let takeBelow :=
      gapBelow < gapAbove ∨ (gapBelow = gapAbove ∧ tie = .even ∧ below % 2 = 0)
    if takeBelow then some ⟨below, point⟩
    else some (carried n above point)

/-- The first length from `n` on that has a decimal in the cell. -/
def searchLength (c : Cell) (point : Int) (tie : Tie) : Nat → Nat → Decimal
  | 0, n => (ofLength? c point tie n).getD ⟨c.value, point⟩
  | fuel + 1, n => (ofLength? c point tie n).getD (searchLength c point tie fuel (n + 1))

/-- The shortest decimal of a finite number that is not zero. -/
def shortest (tie : Tie) (x : Binary64) : Decimal :=
  let c := cell x
  searchLength c (pointOf c.value) tie 17 1

end Decimal

/-- How a decimal is laid out. The positions of the point from `leastPoint` to `greatestPoint` are
written without an exponent and with a fraction of at least one digit. -/
structure Layout where
  leastPoint : Int
  greatestPoint : Int
  tie : Tie
deriving Repr

namespace Layout

/-- A decimal without its sign. -/
def decimal (layout : Layout) (d : Decimal) : String :=
  let digits := (Nat.toDigits 10 d.digits).reverse.dropWhile (· == '0') |>.reverse
  let count : Int := digits.length
  String.ofList <|
    if d.point < layout.leastPoint ∨ layout.greatestPoint < d.point then
      let exponent := ("e" ++ Text.signedDecimal (d.point - 1)).toList
      match digits with
      | [] => []
      | [c] => c :: exponent
      | c :: cs => c :: '.' :: cs ++ exponent
    else if d.point ≤ 0 then
      "0.".toList ++ List.replicate (-d.point).toNat '0' ++ digits
    else if count ≤ d.point then
      digits ++ List.replicate (d.point - count).toNat '0' ++ ".0".toList
    else digits.take d.point.toNat ++ '.' :: digits.drop d.point.toNat

/-- The text of a number. -/
def render (layout : Layout) (x : Binary64) : String :=
  let sign := if x.negative then "-" else ""
  if !x.isFinite then sign ++ "inf"
  else if x.isZero then sign ++ "0.0"
  else sign ++ layout.decimal (Decimal.shortest layout.tie x)

end Layout

end ListQuery.Number
