/-
Reading compressed bytes: blocks of literal bytes, and of symbols that stand for bytes or for copies
of what came before. What follows the last block does not matter.
-/
import ListQuery.Codec.Deflate.PrefixCode

namespace ListQuery.Deflate

/-- For the length symbols from 257 on: the shortest length, and how many bits are added to it. -/
def lengthTable : List (Nat × Nat) := [
  (3, 0), (4, 0), (5, 0), (6, 0), (7, 0), (8, 0), (9, 0), (10, 0),
  (11, 1), (13, 1), (15, 1), (17, 1), (19, 2), (23, 2), (27, 2), (31, 2),
  (35, 3), (43, 3), (51, 3), (59, 3), (67, 4), (83, 4), (99, 4), (115, 4),
  (131, 5), (163, 5), (195, 5), (227, 5), (258, 0)]

/-- For each distance symbol: the shortest distance, and how many bits are added to it. -/
def distanceTable : List (Nat × Nat) := [
  (1, 0), (2, 0), (3, 0), (4, 0), (5, 1), (7, 1), (9, 2), (13, 2), (17, 3), (25, 3),
  (33, 4), (49, 4), (65, 5), (97, 5), (129, 6), (193, 6), (257, 7), (385, 7), (513, 8), (769, 8),
  (1025, 9), (1537, 9), (2049, 10), (3073, 10), (4097, 11), (6145, 11), (8193, 12), (12289, 12),
  (16385, 13), (24577, 13)]

/-- The number of a table's entry with the bits that follow added. -/
def entry? (table : List (Nat × Nat)) (index : Nat) (r : BitReader) : Option (Nat × BitReader) := do
  let (base, extra) ← table[index]?
  let (more, r) ← r.number? extra
  some (base + more, r)

/-- Copies bytes from `distance` back, one by one, so that a copy may run into itself. Before the
first byte all are zero. -/
def copyBack (distance : Nat) : Nat → Array UInt8 → Array UInt8
  | 0, out => out
  | n + 1, out =>
    let b := if distance ≤ out.size then out.getD (out.size - distance) 0 else 0
    copyBack distance n (out.push b)

/-- The symbols of a block up to its end; each takes at least one bit, so the number of bits is fuel
enough. -/
def symbols? (literals distances : PrefixCode) :
    Nat → BitReader → Array UInt8 → Option (Array UInt8 × BitReader)
  | 0, _, _ => none
  | fuel + 1, r, out => do
    let (s, r) ← literals.read? r
    if s < 256 then symbols? literals distances fuel r (out.push s.toUInt8)
    else if s = 256 then some (out, r)
    else
      let (length, r) ← entry? lengthTable (s - 257) r
      let (d, r) ← distances.read? r
      let (distance, r) ← entry? distanceTable d r
      symbols? literals distances fuel r (copyBack distance length out)

/-! ## Blocks -/

/-- Bytes as they are: their number, its complement, and the bytes. -/
def stored? (r : BitReader) (out : Array UInt8) : Option (Array UInt8 × BitReader) :=
  match r.align.bytes with
  | n0 :: n1 :: c0 :: c1 :: bytes =>
    let length := n0.toNat + 256 * n1.toNat
    let complement := c0.toNat + 256 * c1.toNat
    if length + complement = 65535 ∧ length ≤ bytes.length then
      some (out ++ bytes.take length, BitReader.ofBytes (bytes.drop length))
    else none
  | _ => none

/-- The word lengths of the agreed code for literals and lengths. -/
def fixedLiterals : List Nat :=
  List.replicate 144 8 ++ List.replicate 112 9 ++ List.replicate 24 7 ++ List.replicate 8 8

/-- The word lengths of the agreed code for distances. -/
def fixedDistances : List Nat := List.replicate 32 5

/-- The order in which the word lengths of the code for word lengths are written. -/
def lengthOrder : List Nat := [16, 17, 18, 0, 8, 7, 9, 6, 10, 5, 11, 4, 12, 3, 13, 2, 14, 1, 15]

/-- `count` numbers of three bits each. -/
def triples? : Nat → BitReader → Option (List Nat × BitReader)
  | 0, r => some ([], r)
  | n + 1, r => do
    let (v, r) ← r.number? 3
    let (vs, r) ← triples? n r
    some (v :: vs, r)

/-- Word lengths until there are `count` of them, the last one first; three symbols repeat the last
length or zero, and may not run over the end. Each symbol gives at least one, so `count` is fuel
enough. -/
def wordLengths? (code : PrefixCode) (count : Nat) :
    Nat → BitReader → List Nat → Option (List Nat × BitReader)
  | 0, r, lengths => if lengths.length = count then some (lengths, r) else none
  | fuel + 1, r, lengths =>
    if count ≤ lengths.length then
      if lengths.length = count then some (lengths, r) else none
    else do
      let (s, r) ← code.read? r
      if s < 16 then wordLengths? code count fuel r (s :: lengths)
      else
        let (base, extra) := if s = 16 then (3, 2) else if s = 17 then (3, 3) else (11, 7)
        let value ← if s = 16 then lengths.head? else some 0
        let (more, r) ← r.number? extra
        wordLengths? code count fuel r (List.replicate (base + more) value ++ lengths)

/-- The codes that a block brings with it. -/
def ownCodes? (r : BitReader) : Option (PrefixCode × PrefixCode × BitReader) := do
  let (literals, r) ← r.number? 5
  let (distances, r) ← r.number? 5
  let (lengths, r) ← r.number? 4
  let literals := literals + 257
  let distances := distances + 1
  if 286 < literals ∨ 30 < distances then none
  else
    let (triples, r) ← triples? (lengths + 4) r
    let given := lengthOrder.zip triples
    let code ← PrefixCode.ofLengths? ((List.range 19).map fun s => (given.lookup s).getD 0)
    let count := literals + distances
    let (all, r) ← wordLengths? code count count r []
    let all := all.reverse
    let literalCode ← PrefixCode.ofLengths? (all.take literals)
    let distanceCode ← PrefixCode.ofLengths? (all.drop literals)
    some (literalCode, distanceCode, r)

/-- The contents of a block of a type. -/
def block? (kind : Nat) (r : BitReader) (out : Array UInt8) : Option (Array UInt8 × BitReader) :=
  match kind with
  | 0 => stored? r out
  | 1 => do
    let literals ← PrefixCode.ofLengths? fixedLiterals
    let distances ← PrefixCode.ofLengths? fixedDistances
    symbols? literals distances r.remaining r out
  | 2 => do
    let (literals, distances, r) ← ownCodes? r
    symbols? literals distances r.remaining r out
  | _ => none

/-- Blocks up to one that is marked as the last. Each takes at least three bits, so the number of
bits is fuel enough. -/
def blocks? : Nat → BitReader → Array UInt8 → Option (Array UInt8)
  | 0, _, _ => none
  | fuel + 1, r, out => do
    let (last, r) ← r.bit?
    let (kind, r) ← r.number? 2
    let (out, r) ← block? kind r out
    if last then some out else blocks? fuel r out

/-- The bytes that compressed bytes stand for. -/
def inflate? (bytes : List UInt8) : Option (List UInt8) :=
  let r := BitReader.ofBytes bytes
  (blocks? r.remaining r #[]).map Array.toList

end ListQuery.Deflate
