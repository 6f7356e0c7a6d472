/-
Bytes as pairs of hexadecimal digits.
-/
import ListQuery.Text.Digits

namespace ListQuery.Hex

/-- Two lowercase digits for each byte. -/
def encode (bytes : List UInt8) : String :=
  String.join (bytes.map fun b => Text.paddedHex 2 b.toNat)

/-- The bytes of a text of digits, an even number of them. -/
def decode? : List Char → Option (List UInt8)
  | [] => some []
  | [_] => none
  | a :: b :: cs =>
    if Text.isHexDigit a && Text.isHexDigit b then
      (decode? cs).map ((Text.digitValue a * 16 + Text.digitValue b).toUInt8 :: ·)
    else none

end ListQuery.Hex
