/-
Numbers of a JSON text. A numeral is what is written; its value is a whole number when it is written
without fraction and exponent and fits 64 bits, and a floating-point number otherwise.

The floating-point value is made in two roundings, not one: as many digits as fit 64 bits make a
whole number, which is rounded and then scaled by one power of ten. So the last bit may be off.
-/
import ListQuery.Number.Binary64
import ListQuery.Number.Word

namespace ListQuery.Json

open Number

/-- A numeral as written, digits as numbers below ten. -/
structure Numeral where
  negative : Bool
  whole : List Nat
  /-- Digits after the point; none of them when there is no point. -/
  fraction : List Nat
  /-- Sign, true for a minus, and digits of the exponent. -/
  exponent : Option (Bool × List Nat)
deriving DecidableEq, Repr

/-- The value of a numeral. -/
inductive NumberValue where
  | int (n : Int)
  | float (x : Binary64)
deriving DecidableEq, Repr

namespace Numeral

/-- Digits folded into a word as long as they fit: the word, how many digits do, on top of `kept`,
and how many do not. -/
def foldWord : Nat → Nat → List Nat → Nat × Nat × Nat
  | word, kept, [] => (word, kept, 0)
  | word, kept, d :: ds =>
    if word * 10 + d ≤ Word.maxNat64 then foldWord (word * 10 + d) (kept + 1) ds
    else (word, kept, ds.length + 1)

/-- Powers of ten up to this one are scaled by in one step. -/
def maxPower : Nat := 308

/-- `x * 10 ^ exponent`, by one multiplication or by divisions; none of what is too large. Two
divisions by the greatest power leave nothing of any word, so the third step is the last. -/
def scaleBy (x : Binary64) (exponent : Int) : Nat → Option Binary64
  | 0 => some x
  | fuel + 1 =>
    if exponent.natAbs ≤ maxPower then
      let power := Binary64.ofNat (Nat.pow 10 exponent.natAbs)
      if 0 ≤ exponent then
        let y := x.mul power
        if y.isFinite then some y else none
      else some (x.div power)
    else if x.isZero then some x
    else if 0 ≤ exponent then none
    else scaleBy (x.div (Binary64.ofNat (Nat.pow 10 maxPower))) (exponent + maxPower) fuel

/-- A word scaled by a power of ten and signed. -/
def ofParts (negative : Bool) (word : Nat) (exponent : Int) : Option Binary64 :=
  (scaleBy (Binary64.ofNat word) exponent 4).map fun x => if negative then x.neg else x

/-- The largest exponent that is taken as it is written. -/
def maxExponent : Nat := 2147483647

/-- The value as a floating-point number; none of what is too large. -/
def float? (n : Numeral) : Option Binary64 :=
  let (word, _, excess) := foldWord 0 0 n.whole
  let (word, kept, _) := foldWord word 0 n.fraction
  let base : Int := excess - kept
  match n.exponent with
  | none => ofParts n.negative word base
  | some (minus, digits) =>
    let e := digits.foldl (fun e d => e * 10 + d) 0
    if maxExponent < e then
      if word = 0 ∨ minus then some (Binary64.make n.negative 0) else none
    else ofParts n.negative word (if minus then base - e else base + e)

/-- The value of a numeral; none when it is too large. Minus zero is a floating-point number. -/
def value? (n : Numeral) : Option NumberValue :=
  if n.fraction.isEmpty && n.exponent.isNone then
    let m : Nat := n.whole.foldl (fun m d => m * 10 + d) 0
    if n.negative then
      if 0 < m ∧ Word.minInt64 ≤ -m then some (.int (-m)) else n.float?.map .float
    else if m ≤ Word.maxNat64 then some (.int m)
    else n.float?.map .float
  else n.float?.map .float

end Numeral

end ListQuery.Json
