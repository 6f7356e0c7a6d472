/-
Writing bytes in the compressed format. They are put into stored blocks as they are, which every
reader of the format takes, and which are the shortest form of nothing and close to it for the short
texts that are written here.
-/
import ListQuery.Codec.Deflate.Inflate

namespace ListQuery.Deflate

/-- The most bytes that a stored block holds. -/
def maxStored : Nat := 65535

/-- A number below 65536 in two bytes, the lower one first. -/
def pair (n : Nat) : List UInt8 := [n.toUInt8, (n / 256).toUInt8]

/-- One stored block. -/
def storedBlock (last : Bool) (bytes : List UInt8) : List UInt8 :=
  (if last then 1 else 0) :: (pair bytes.length ++ pair (65535 - bytes.length) ++ bytes)

/-- Bytes in the compressed format. -/
def store (bytes : List UInt8) : List UInt8 :=
  if bytes.length ≤ maxStored then storedBlock true bytes
  else storedBlock false (bytes.take maxStored) ++ store (bytes.drop maxStored)
termination_by bytes.length
decreasing_by
  simp only [List.length_drop, maxStored] at *
  omega

end ListQuery.Deflate
