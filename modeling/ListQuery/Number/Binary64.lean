/-
Binary floating-point numbers of 64 bits, kept as their bits. A finite number is a significand times
a power of two, and every operation here is its exact result rounded once: to the nearest number,
a tie to the even significand, to infinity past the largest.
-/
import ListQuery.Text.Digits

namespace ListQuery.Number

structure Binary64 where
  bits : UInt64
deriving DecidableEq, Repr

namespace Binary64

/-- The bit of the sign. -/
def signBit : Nat := 0x8000000000000000

/-- The leading bit of a significand, which is not written out. -/
def leading : Nat := 0x10000000000000

/-- The bits as a number. -/
def word (x : Binary64) : Nat := x.bits.toNat

def negative (x : Binary64) : Bool := decide (signBit ≤ x.word)

/-- The bits without the sign. They order the numbers by size. -/
def magnitude (x : Binary64) : Nat := x.word % signBit

/-- The magnitude of infinity, the first that is not finite. -/
def infinite : Nat := 2047 * leading

def isFinite (x : Binary64) : Bool := decide (x.magnitude < infinite)

def isZero (x : Binary64) : Bool := x.magnitude == 0

/-- The factor before the power of two. -/
def significand (x : Binary64) : Nat :=
  if x.magnitude < leading then x.magnitude else x.magnitude % leading + leading

/-- The power of two is that of this exponent less 1074. -/
def scale (x : Binary64) : Nat := x.magnitude / leading - 1

/-- The number with a given sign and magnitude. -/
def make (negative : Bool) (magnitude : Nat) : Binary64 :=
  ⟨UInt64.ofNat ((if negative then signBit else 0) + min magnitude infinite)⟩

/-- The quotient rounded to the nearest whole number, a tie to the even one. -/
def roundDiv (num den : Nat) : Nat :=
  let q := num / den
  let r := num % den
  if den < 2 * r ∨ (2 * r = den ∧ q % 2 = 1) then q + 1 else q

/-- The magnitude nearest to `num / den`. With the power of two chosen so that the rounded
significand has 53 bits, or is as small as numbers get, adding the significand to the exponent's
place also carries a significand that rounds up to the next power of two. -/
def roundMagnitude (num den : Nat) : Nat :=
  if num = 0 then 0
  else
    let log : Int := Nat.log2 num - Nat.log2 den
    let small : Bool :=
      if 0 ≤ log then decide (num < den * Nat.pow 2 log.toNat)
      else decide (num * Nat.pow 2 (-log).toNat < den)
    let log := if small then log - 1 else log
    let exponent : Int := max (log - 52) (-1074)
    let q :=
      if 0 ≤ exponent then roundDiv num (den * Nat.pow 2 exponent.toNat)
      else roundDiv (num * Nat.pow 2 (-exponent).toNat) den
    (exponent + 1074).toNat * leading + q

/-- The number nearest to `num / den`, signed. -/
def ofRatio (negative : Bool) (num den : Nat) : Binary64 :=
  make negative (roundMagnitude num den)

def ofNat (n : Nat) : Binary64 := ofRatio false n 1

def ofInt (n : Int) : Binary64 := ofRatio (decide (n < 0)) n.natAbs 1

/-- A finite number as a fraction: `significand * 2 ^ scale / 2 ^ 1074`. -/
def numerator (x : Binary64) : Nat := x.significand * Nat.pow 2 x.scale

def neg (x : Binary64) : Binary64 := make (!x.negative) x.magnitude

/-- The product of two finite numbers. -/
def mul (x y : Binary64) : Binary64 :=
  ofRatio (x.negative != y.negative) (x.numerator * y.numerator) (Nat.pow 2 2148)

/-- The quotient of two finite numbers, the second not zero. -/
def div (x y : Binary64) : Binary64 :=
  ofRatio (x.negative != y.negative) x.numerator y.numerator

/-- Equality of numbers: both zeros are equal. -/
def equal (x y : Binary64) : Bool :=
  x == y || (x.isZero && y.isZero)

/-- The number nearest to `digits * 10 ^ exponent`. Exponents that lie past all numbers, or below
all but zero, are not computed with. -/
def ofDecimal (negative : Bool) (digits : Nat) (exponent : Int) : Binary64 :=
  if digits = 0 then make negative 0
  else
    let size : Int := (Nat.toDigits 10 digits).length + exponent
    if 400 < size then make negative infinite
    else if size < -400 then make negative 0
    else if 0 ≤ exponent then ofRatio negative (digits * Nat.pow 10 exponent.toNat) 1
    else ofRatio negative digits (Nat.pow 10 (-exponent).toNat)

end Binary64

end ListQuery.Number
