/-
Digits and the numbers they spell: reading digits in a base, writing a number with a least width.
-/
import ListQuery.Text.CharClass

namespace ListQuery.Text

/-- The value of a digit in any base up to sixteen; other characters count as zero. -/
def digitValue (c : Char) : Nat :=
  if c.isDigit then c.toNat - '0'.toNat
  else if decide ('a' ≤ c) && decide (c ≤ 'f') then c.toNat - 'a'.toNat + 10
  else if decide ('A' ≤ c) && decide (c ≤ 'F') then c.toNat - 'A'.toNat + 10
  else 0

/-- The number that a run of digits spells in a base, the first digit weighing most. -/
def ofDigits (base : Nat) (digits : List Char) : Nat :=
  digits.foldl (fun n c => n * base + digitValue c) 0

/-- The decimal digits of a number, without leading zeros. -/
def decimal (n : Nat) : String :=
  String.ofList (Nat.toDigits 10 n)

/-- A decimal integer, a minus sign before a negative one. -/
def signedDecimal (n : Int) : String :=
  if n < 0 then "-" ++ decimal n.natAbs else decimal n.natAbs

/-- Decimal digits filled up with zeros in front to at least `width` digits. -/
def paddedDecimal (width n : Nat) : String :=
  let digits := Nat.toDigits 10 n
  String.ofList (List.replicate (width - digits.length) '0' ++ digits)

/-- Lowercase hexadecimal digits filled up with zeros in front to at least `width` digits. -/
def paddedHex (width n : Nat) : String :=
  let digits := Nat.toDigits 16 n
  String.ofList (List.replicate (width - digits.length) '0' ++ digits)

end ListQuery.Text
