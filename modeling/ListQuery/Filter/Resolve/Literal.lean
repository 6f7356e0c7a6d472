/-
Literals of scalar kinds: numbers, bytes and keys of maps.
-/
import ListQuery.Codec.Base64
import ListQuery.Codec.Hex
import ListQuery.Filter.Resolve.Options

namespace ListQuery.Filter

open Number

/-- The failure of a leaf that is no value of a field. -/
def mismatch {α : Type} (f : Field) (l : Leaf) : Resolve α :=
  Resolve.fail l.pos (.mismatch l.kind l.raw f.kind f.name)

/-- The digits of an integer literal and their base. -/
def integerDigits (kind : Kind) (body : List Char) : Option (Nat × List Char) :=
  match kind with
  | .int => some (10, body)
  | .hex => some (16, body.drop 2)
  | .oct =>
    match body with
    | '0' :: 'o' :: ds => some (8, ds)
    | '0' :: 'O' :: ds => some (8, ds)
    | ds => some (8, ds)
  | _ => none

/-- The value of a text as an integer literal of a kind; none when it is too large to work with. -/
def integerValue? (kind : Kind) (text : List Char) : Option Int :=
  let negative := text.head? == some '-'
  let body := if negative then text.tail else text
  match integerDigits kind body with
  | none => none
  | some (base, digits) =>
    let n := Text.ofDigits base digits
    if n ≤ Word.maxInt128 then some (if negative then -(n : Int) else n) else none

namespace Leaf

/-- The value of an integer leaf. -/
def integer? (l : Leaf) : Option Int := integerValue? l.kind l.raw.toList

end Leaf

/-- The least and the greatest value of an integer kind. -/
def integerRange (k : FieldKind) : Int × Int :=
  match k.isSigned, k.bits? == some 64 with
  | true, true => (Word.minInt64, Word.maxInt64)
  | true, false => (Word.minInt32, Word.maxInt32)
  | false, true => (0, Word.maxNat64)
  | false, false => (0, Word.maxNat32)

/-- An integer leaf as an integer of a field's kind. Integers are keys of maps as well as values. -/
def integerLiteral (f : Field) (l : Leaf) : Resolve MapKey :=
  if !l.kind.isInteger then mismatch f l
  else
    let outOfRange : Resolve MapKey := Resolve.fail l.pos (.outOfRange l.raw f.kind)
    match l.integer? with
    | none => outOfRange
    | some n =>
      let (low, high) := integerRange f.kind
      if f.kind.isSigned then
        if low ≤ n ∧ n ≤ high then pure (.int64 n) else outOfRange
      else if f.kind.isUnsigned then
        if low ≤ n ∧ n ≤ high then pure (.uint64 n.toNat) else outOfRange
      else mismatch f l

/-- A leaf as a key of a map. -/
def mapKey (key : Field) (l : Leaf) : Resolve MapKey :=
  if key.kind = .string then pure (.string l.unquoted)
  else if key.kind = .bool ∧ l.kind = .bool then pure (.bool (l.raw == "true"))
  else if key.kind.isSigned || key.kind.isUnsigned then integerLiteral key l
  else mismatch key l

/-- The number nearest to a decimal text: digits, a fraction and an exponent at will. -/
def decimalFloat (text : List Char) : Binary64 :=
  let negative := text.head? == some '-'
  let body := if negative then text.tail else text
  let whole := body.takeWhile Char.isDigit
  let rest := body.dropWhile Char.isDigit
  let (fraction, rest) :=
    match rest with
    | '.' :: r => (r.takeWhile Char.isDigit, r.dropWhile Char.isDigit)
    | r => ([], r)
  let exponent : Int :=
    match rest with
    | _ :: '-' :: ds => -(Text.ofDigits 10 ds : Int)
    | _ :: '+' :: ds => Text.ofDigits 10 ds
    | _ :: ds => Text.ofDigits 10 ds
    | [] => 0
  Binary64.ofDecimal negative (Text.ofDigits 10 (whole ++ fraction)) (exponent - fraction.length)

namespace Leaf

/-- The value of a number leaf as a floating-point number. -/
def float? (l : Leaf) : Option Binary64 :=
  match l.kind with
  | .int | .numeric => some (decimalFloat l.raw.toList)
  | .hex | .oct => l.integer?.map Binary64.ofInt
  | _ => none

end Leaf

/-- The magnitude of the largest number of 32 bits. -/
def maxFloat32 : Nat := 0x47EFFFFFE0000000

/-- A number leaf as a value of a floating-point field. -/
def floatLiteral (f : Field) (l : Leaf) : Resolve Binary64 :=
  match l.float? with
  | some x =>
    if !x.isFinite then mismatch f l
    else if f.kind = .float ∧ maxFloat32 < x.magnitude then
      Resolve.fail l.pos (.outOfRange l.raw .float)
    else pure x
  | none => mismatch f l

namespace Leaf

/-- The bytes of a leaf: those of a string, of a hexadecimal literal, or of a bare word in base
64. -/
def bytes? (l : Leaf) : Option (List UInt8) :=
  match l.kind with
  | .string => some l.unquoted.toUTF8.toList
  | .hex => Hex.decode? (l.raw.toList.drop 2)
  | .text => Base64.decodeWhole? Base64.standard l.raw.toList
  | _ => none

end Leaf

end ListQuery.Filter
