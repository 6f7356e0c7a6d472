/-!
Bytes read bit by bit, the lowest bit of each byte first.
-/

namespace ListQuery.Deflate

/-- The bits of a byte, the lowest first. -/
def byteBits (b : UInt8) : List Bool :=
  (List.range 8).map fun i => b.toNat.testBit i

/-- A place in bytes: the bits left of the byte that has been begun, and the bytes after it. -/
structure BitReader where
  bits : List Bool
  bytes : List UInt8

namespace BitReader

def ofBytes (bytes : List UInt8) : BitReader := ⟨[], bytes⟩

/-- The number of bits left. -/
def remaining (r : BitReader) : Nat := r.bits.length + 8 * r.bytes.length

def bit? : BitReader → Option (Bool × BitReader)
  | ⟨b :: bits, bytes⟩ => some (b, ⟨bits, bytes⟩)
  | ⟨[], b :: bytes⟩ => some (b.toNat.testBit 0, ⟨(byteBits b).tail, bytes⟩)
  | ⟨[], []⟩ => none

/-- A number of `n` bits, the lowest first. -/
def number? : Nat → BitReader → Option (Nat × BitReader)
  | 0, r => some (0, r)
  | n + 1, r =>
    match r.bit? with
    | none => none
    | some (b, r) =>
      match number? n r with
      | none => none
      | some (v, r) => some (b.toNat + 2 * v, r)

/-- Leaves out what is left of the byte that has been begun. -/
def align (r : BitReader) : BitReader := ⟨[], r.bytes⟩

end BitReader

end ListQuery.Deflate
