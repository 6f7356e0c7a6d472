/-!
Base 64: three bytes as four characters. Reading is strict: a foreign character, a lone last
character and bits that are left over and not zero are all refused.
-/

namespace ListQuery.Base64

/-- The characters for 62 and 63, which the alphabets differ in. -/
structure Alphabet where
  plus : Char
  slash : Char
deriving DecidableEq, Repr

def standard : Alphabet := ⟨'+', '/'⟩

/-- The alphabet that needs no escaping in an address. -/
def urlSafe : Alphabet := ⟨'-', '_'⟩

namespace Alphabet

/-- The character of a number below 64. -/
def char (a : Alphabet) (n : Nat) : Char :=
  if n < 26 then Char.ofNat ('A'.toNat + n)
  else if n < 52 then Char.ofNat ('a'.toNat + (n - 26))
  else if n < 62 then Char.ofNat ('0'.toNat + (n - 52))
  else if n = 62 then a.plus
  else a.slash

/-- The number of a character. -/
def value? (a : Alphabet) (c : Char) : Option Nat :=
  if 'A' ≤ c ∧ c ≤ 'Z' then some (c.toNat - 'A'.toNat)
  else if 'a' ≤ c ∧ c ≤ 'z' then some (c.toNat - 'a'.toNat + 26)
  else if '0' ≤ c ∧ c ≤ '9' then some (c.toNat - '0'.toNat + 52)
  else if c = a.plus then some 62
  else if c = a.slash then some 63
  else none

end Alphabet

/-- The characters of bytes, without padding. -/
def encode (a : Alphabet) : List UInt8 → List Char
  | [] => []
  | [x] => [a.char (x.toNat / 4), a.char (x.toNat % 4 * 16)]
  | [x, y] =>
    [a.char (x.toNat / 4), a.char (x.toNat % 4 * 16 + y.toNat / 16), a.char (y.toNat % 16 * 4)]
  | x :: y :: z :: r =>
    a.char (x.toNat / 4) :: a.char (x.toNat % 4 * 16 + y.toNat / 16) ::
      a.char (y.toNat % 16 * 4 + z.toNat / 64) :: a.char (z.toNat % 64) :: encode a r

/-- The bytes of numbers below 64. -/
def ofSextets? : List Nat → Option (List UInt8)
  | [] => some []
  | [_] => none
  | [p, q] => if q % 16 = 0 then some [(p * 4 + q / 16).toUInt8] else none
  | [p, q, r] =>
    if r % 4 = 0 then some [(p * 4 + q / 16).toUInt8, (q % 16 * 16 + r / 4).toUInt8] else none
  | p :: q :: r :: s :: rest =>
    (ofSextets? rest).map fun bytes =>
      (p * 4 + q / 16).toUInt8 :: (q % 16 * 16 + r / 4).toUInt8 :: (r % 4 * 64 + s).toUInt8 :: bytes

/-- The bytes of a text without padding. -/
def decode? (a : Alphabet) (cs : List Char) : Option (List UInt8) :=
  (cs.mapM a.value?).bind ofSextets?

/-- The bytes of a text in whole groups of four, none of them padded. -/
def decodeWhole? (a : Alphabet) (cs : List Char) : Option (List UInt8) :=
  if cs.length % 4 = 0 then decode? a cs else none

end ListQuery.Base64
