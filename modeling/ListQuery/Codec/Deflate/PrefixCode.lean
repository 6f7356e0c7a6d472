/-
Prefix codes as trees. A code is given by the length of each symbol's word alone: words are handed
out from the left, short ones first and those of one length in the order of their symbols.
-/
import ListQuery.Codec.Deflate.Bits

namespace ListQuery.Deflate

inductive PrefixCode where
  /-- No word leads here. -/
  | missing
  | symbol (s : Nat)
  | fork (zero one : PrefixCode)
deriving DecidableEq, Repr

namespace PrefixCode

/-- Whether every run of bits leads to a symbol. -/
def isComplete : PrefixCode → Bool
  | .missing => false
  | .symbol _ => true
  | .fork zero one => zero.isComplete && one.isComplete

/-- The next symbol. -/
def read? : PrefixCode → BitReader → Option (Nat × BitReader)
  | .missing, _ => none
  | .symbol s, r => some (s, r)
  | .fork zero one, r =>
    match r.bit? with
    | none => none
    | some (false, r) => zero.read? r
    | some (true, r) => one.read? r

/-- Words are no longer than this. -/
def maxLength : Nat := 15

/-- The tree below a place at `depth`, with `room` for that many levels more, filled from the left
with symbols in order of their lengths; the symbols that found no place. -/
def fill : Nat → Nat → List (Nat × Nat) → PrefixCode × List (Nat × Nat)
  | _, _, [] => (.missing, [])
  | 0, depth, (length, s) :: rest =>
    if length = depth then (.symbol s, rest) else (.missing, (length, s) :: rest)
  | room + 1, depth, (length, s) :: rest =>
    if length = depth then (.symbol s, rest)
    else
      let (zero, rest) := fill room (depth + 1) ((length, s) :: rest)
      let (one, rest) := fill room (depth + 1) rest
      (.fork zero one, rest)

/-- The symbols that have a word, with its length, in the order in which words are handed out. -/
def ranked (lengths : List Nat) : List (Nat × Nat) :=
  (List.range maxLength).flatMap fun i =>
    lengths.zipIdx.filter fun l => l.1 == i + 1

/-- The code with the given word lengths, zero for a symbol without a word. Words must neither run
out nor be left over, except that a code of at most one symbol may be short. -/
def ofLengths? (lengths : List Nat) : Option PrefixCode :=
  let symbols := ranked lengths
  match fill maxLength 0 symbols with
  | (code, []) => if code.isComplete || symbols.length ≤ 1 then some code else none
  | _ => none

end PrefixCode

end ListQuery.Deflate
