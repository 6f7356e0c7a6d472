/-
JSON texts as they are written. Reading checks the grammar only: what a string or a number stands
for is worked out when somebody asks for it, so a part that nobody asks for may hold a number past
all bounds or half of a surrogate pair.
-/
import ListQuery.Json.Numeral

namespace ListQuery.Json

inductive Raw where
  | null
  | bool (b : Bool)
  | number (n : Numeral)
  /-- The bytes between the quotes, escapes and all. -/
  | string (content : List UInt8)
  | array (items : List Raw)
  /-- Members in order, repeated names and all. -/
  | object (members : List (List UInt8 × Raw))

namespace Raw

/-- The byte of an ASCII character. -/
def byte (c : Char) : UInt8 := c.toNat.toUInt8

def isBlank (b : UInt8) : Bool :=
  b == byte ' ' || b == byte '\n' || b == byte '\t' || b == byte '\r'

def skipBlanks (bs : List UInt8) : List UInt8 := bs.dropWhile isBlank

def isDigit (b : UInt8) : Bool := decide (byte '0' ≤ b) && decide (b ≤ byte '9')

def digit (b : UInt8) : Nat := (b - byte '0').toNat

/-- The value of a hexadecimal digit. -/
def hexDigit? (b : UInt8) : Option Nat :=
  if isDigit b then some (digit b)
  else if byte 'a' ≤ b ∧ b ≤ byte 'f' then some ((b - byte 'a').toNat + 10)
  else if byte 'A' ≤ b ∧ b ≤ byte 'F' then some ((b - byte 'A').toNat + 10)
  else none

/-- Four hexadecimal digits. -/
def hexFour? : List UInt8 → Option (Nat × List UInt8)
  | a :: b :: c :: d :: r => do
    let a ← hexDigit? a
    let b ← hexDigit? b
    let c ← hexDigit? c
    let d ← hexDigit? d
    some (((a * 16 + b) * 16 + c) * 16 + d, r)
  | _ => none

/-- The byte that a one-letter escape stands for. -/
def simpleEscape? (b : UInt8) : Option UInt8 :=
  if b == byte '"' || b == byte '\\' || b == byte '/' then some b
  else if b == byte 'b' then some 8
  else if b == byte 'f' then some 12
  else if b == byte 'n' then some 10
  else if b == byte 'r' then some 13
  else if b == byte 't' then some 9
  else none

/-- A string after its opening quote: its content and what follows the closing quote. Control bytes
and unknown escapes are refused. -/
def stringContent? : List UInt8 → Option (List UInt8 × List UInt8)
  | [] => none
  | b :: bs =>
    if b == byte '"' then some ([], bs)
    else if b == byte '\\' then
      match bs with
      | [] => none
      | e :: bs =>
        if e == byte 'u' || (simpleEscape? e).isSome then
          (stringContent? bs).map fun (content, rest) => (b :: e :: content, rest)
        else none
    else if b < 32 then none
    else (stringContent? bs).map fun (content, rest) => (b :: content, rest)

/-- Whether each `u` escape of a content is followed by four hexadecimal digits. -/
def escapesWhole : List UInt8 → Bool
  | [] => true
  | b :: bs =>
    if b == byte '\\' then
      match bs with
      | [] => true
      | e :: bs => (e != byte 'u' || (hexFour? bs).isSome) && escapesWhole bs
    else escapesWhole bs

/-- A string after its opening quote. -/
def string? (bs : List UInt8) : Option (List UInt8 × List UInt8) :=
  match stringContent? bs with
  | some (content, rest) => if escapesWhole content then some (content, rest) else none
  | none => none

/-- A run of digits, at least one. -/
def digits? (bs : List UInt8) : Option (List Nat × List UInt8) :=
  match bs.takeWhile isDigit with
  | [] => none
  | ds => some (ds.map digit, bs.dropWhile isDigit)

/-- The whole part of a number: no leading zero before other digits. -/
def whole? (bs : List UInt8) : Option (List Nat × List UInt8) :=
  match digits? bs with
  | some (0 :: _ :: _, _) => none
  | other => other

/-- The optional fraction. -/
def fraction? : List UInt8 → Option (List Nat × List UInt8)
  | b :: bs => if b == byte '.' then digits? bs else some ([], b :: bs)
  | [] => some ([], [])

/-- The optional exponent. -/
def exponent? : List UInt8 → Option (Option (Bool × List Nat) × List UInt8)
  | b :: bs =>
    if b == byte 'e' || b == byte 'E' then
      let minus := bs.head? == some (byte '-')
      let bs := if minus || bs.head? == some (byte '+') then bs.tail else bs
      (digits? bs).map fun (ds, rest) => (some (minus, ds), rest)
    else some (none, b :: bs)
  | [] => some (none, [])

/-- A number after its sign. -/
def number? (negative : Bool) (bs : List UInt8) : Option (Raw × List UInt8) := do
  let (whole, bs) ← whole? bs
  let (fraction, bs) ← fraction? bs
  let (exponent, bs) ← exponent? bs
  some (.number ⟨negative, whole, fraction, exponent⟩, bs)

/-- What follows a word at the front of a text. -/
def after? (word : String) (bs : List UInt8) : Option (List UInt8) :=
  let w := word.toUTF8.toList
  if w.isPrefixOf bs then some (bs.drop w.length) else none

mutual

/-- A value; each call takes at least one byte, so the length of the text is fuel enough. -/
def value? : Nat → List UInt8 → Option (Raw × List UInt8)
  | 0, _ => none
  | fuel + 1, bs =>
    match skipBlanks bs with
    | [] => none
    | b :: bs =>
      if b == byte 'n' then (after? "ull" bs).map fun rest => (.null, rest)
      else if b == byte 't' then (after? "rue" bs).map fun rest => (.bool true, rest)
      else if b == byte 'f' then (after? "alse" bs).map fun rest => (.bool false, rest)
      else if b == byte '"' then (string? bs).map fun (content, rest) => (.string content, rest)
      else if b == byte '-' then number? true bs
      else if isDigit b then number? false (b :: bs)
      else if b == byte '[' then
        match skipBlanks bs with
        | [] => none
        | c :: cs =>
          if c == byte ']' then some (.array [], cs)
          else (items? fuel (c :: cs)).map fun (items, rest) => (.array items, rest)
      else if b == byte '\x7b' then
        match skipBlanks bs with
        | [] => none
        | c :: cs =>
          if c == byte '\x7d' then some (.object [], cs)
          else (members? fuel (c :: cs)).map fun (members, rest) => (.object members, rest)
      else none

/-- The items of an array, up to its closing bracket. -/
def items? : Nat → List UInt8 → Option (List Raw × List UInt8)
  | 0, _ => none
  | fuel + 1, bs =>
    match value? fuel bs with
    | none => none
    | some (item, bs) =>
      match skipBlanks bs with
      | [] => none
      | c :: cs =>
        if c == byte ']' then some ([item], cs)
        else if c == byte ',' then (items? fuel cs).map fun (items, rest) => (item :: items, rest)
        else none

/-- The members of an object, up to its closing brace. -/
def members? : Nat → List UInt8 → Option (List (List UInt8 × Raw) × List UInt8)
  | 0, _ => none
  | fuel + 1, bs =>
    match skipBlanks bs with
    | [] => none
    | q :: bs =>
      if q != byte '"' then none
      else
        match string? bs with
        | none => none
        | some (name, bs) =>
          match skipBlanks bs with
          | [] => none
          | colon :: bs =>
            if colon != byte ':' then none
            else
              match value? fuel bs with
              | none => none
              | some (value, bs) =>
                match skipBlanks bs with
                | [] => none
                | c :: cs =>
                  if c == byte '\x7d' then some ([(name, value)], cs)
                  else if c == byte ',' then
                    (members? fuel cs).map fun (members, rest) => ((name, value) :: members, rest)
                  else none

end

/-- A whole text: one value, blanks around it. -/
def read? (bs : List UInt8) : Option Raw :=
  match value? (bs.length + 1) bs with
  | some (value, rest) => if (skipBlanks rest).isEmpty then some value else none
  | none => none

/-- A whole text. -/
def ofString? (text : String) : Option Raw := read? text.toUTF8.toList

/-! ## Strings -/

/-- The bytes of a character. -/
def encodeChar (n : Nat) : List UInt8 := (String.singleton (Char.ofNat n)).toUTF8.toList

/-- The content of a string with its escapes replaced; none when a surrogate has no partner. -/
def unescape? : Nat → List UInt8 → Option (List UInt8)
  | 0, _ => some []
  | _ + 1, [] => some []
  | fuel + 1, b :: bs =>
    if b != byte '\\' then (unescape? fuel bs).map (b :: ·)
    else
      match bs with
      | [] => none
      | e :: bs =>
        if e != byte 'u' then do
          let c ← simpleEscape? e
          (unescape? fuel bs).map (c :: ·)
        else do
          let (n, bs) ← hexFour? bs
          if 0xDC00 ≤ n ∧ n ≤ 0xDFFF then none
          else if 0xD800 ≤ n ∧ n ≤ 0xDBFF then
            match bs with
            | s :: u :: bs =>
              if s == byte '\\' && u == byte 'u' then do
                let (m, bs) ← hexFour? bs
                if 0xDC00 ≤ m ∧ m ≤ 0xDFFF then
                  let c := 0x10000 + (n - 0xD800) * 0x400 + (m - 0xDC00)
                  (unescape? fuel bs).map (encodeChar c ++ ·)
                else none
              else none
            | _ => none
          else (unescape? fuel bs).map (encodeChar n ++ ·)

/-- The text that a content stands for. -/
def text? (content : List UInt8) : Option String := do
  let bytes ← unescape? content.length content
  String.fromUTF8? ⟨bytes.toArray⟩

end Raw

end ListQuery.Json
