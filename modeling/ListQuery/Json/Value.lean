/-
JSON values and their compact text. An object that has been read has its members in the order of
their names, each name once; of members that are written with one name the last one counts.
-/
import ListQuery.Json.Raw
import ListQuery.Number.Shortest

namespace ListQuery

open Number

inductive Json where
  | null
  | bool (b : Bool)
  | int (n : Int)
  | float (x : Binary64)
  | string (s : String)
  | array (items : List Json)
  | object (members : List (String × Json))
deriving Inhabited

namespace Json

/-- Arrays and objects nest no deeper than this. -/
def maxDepth : Nat := 127

/-- Puts a member into its place among members in order; one of the same name makes way. -/
def insertMember (name : String) (value : Json) : List (String × Json) → List (String × Json)
  | [] => [(name, value)]
  | m :: ms =>
    if name < m.1 then (name, value) :: m :: ms
    else if name = m.1 then (name, value) :: ms
    else m :: insertMember name value ms

/-- An object of the given members. -/
def ofMembers (members : List (String × Json)) : Json :=
  .object (members.foldl (fun ms m => insertMember m.1 m.2 ms) [])

mutual

/-- The value of a text that has been read, nested at most `depth` deep; none when a string or a
number in it stands for nothing. -/
def ofRaw? (depth : Nat) : Raw → Option Json
  | .null => some .null
  | .bool b => some (.bool b)
  | .number n =>
    match n.value? with
    | some (.int n) => some (.int n)
    | some (.float x) => some (.float x)
    | none => none
  | .string content => (Raw.text? content).map .string
  | .array items => if depth = 0 then none else (ofRawItems? (depth - 1) items).map .array
  | .object members => if depth = 0 then none else (ofRawMembers? (depth - 1) members).map ofMembers

def ofRawItems? (depth : Nat) : List Raw → Option (List Json)
  | [] => some []
  | r :: rs =>
    match ofRaw? depth r, ofRawItems? depth rs with
    | some v, some vs => some (v :: vs)
    | _, _ => none

def ofRawMembers? (depth : Nat) : List (List UInt8 × Raw) → Option (List (String × Json))
  | [] => some []
  | (name, r) :: rs =>
    match Raw.text? name, ofRaw? depth r, ofRawMembers? depth rs with
    | some name, some v, some vs => some ((name, v) :: vs)
    | _, _, _ => none

end

/-- The value of a text in bytes. -/
def ofBytes? (bytes : List UInt8) : Option Json :=
  (Raw.read? bytes).bind (ofRaw? maxDepth)

/-- The value of a text. -/
def ofString? (text : String) : Option Json := ofBytes? text.toUTF8.toList

/-! ## Text -/

/-- Numbers stand without an exponent when their point lies at most 16 places to the right and at
most four zeros follow it; a tie goes to the even digit. -/
def numberLayout : Layout := ⟨-4, 16, .even⟩

/-- One character of a string. -/
def escapeChar (c : Char) : String :=
  match c with
  | '"' => "\\\""
  | '\\' => "\\\\"
  | '\n' => "\\n"
  | '\r' => "\\r"
  | '\t' => "\\t"
  | '\x08' => "\\b"
  | '\x0c' => "\\f"
  | c => if c.toNat < 32 then "\\u" ++ Text.paddedHex 4 c.toNat else String.singleton c

/-- A string between its quotes. -/
def quote (s : String) : String :=
  "\"" ++ String.join (s.toList.map escapeChar) ++ "\""

mutual

/-- The text of a value, without blanks. -/
def compact : Json → String
  | .null => "null"
  | .bool b => if b then "true" else "false"
  | .int n => Text.signedDecimal n
  | .float x => if x.isFinite then numberLayout.render x else "null"
  | .string s => quote s
  | .array items => "[" ++ String.intercalate "," (compactItems items) ++ "]"
  | .object members => "\x7b" ++ String.intercalate "," (compactMembers members) ++ "\x7d"

def compactItems : List Json → List String
  | [] => []
  | v :: vs => compact v :: compactItems vs

def compactMembers : List (String × Json) → List String
  | [] => []
  | (name, v) :: ms => (quote name ++ ":" ++ compact v) :: compactMembers ms

end

/-- The bytes of the compact text. -/
def bytes (v : Json) : List UInt8 := v.compact.toUTF8.toList

mutual

/-- Equality of values: a whole number never equals a floating-point number, and both zeros are
equal. -/
def same : Json → Json → Bool
  | .null, .null => true
  | .bool a, .bool b => a == b
  | .int a, .int b => a == b
  | .float a, .float b => a.equal b
  | .string a, .string b => a == b
  | .array as, .array bs => sameItems as bs
  | .object as, .object bs => sameMembers as bs
  | _, _ => false

def sameItems : List Json → List Json → Bool
  | [], [] => true
  | a :: as, b :: bs => same a b && sameItems as bs
  | _, _ => false

def sameMembers : List (String × Json) → List (String × Json) → Bool
  | [], [] => true
  | (m, a) :: as, (n, b) :: bs => m == n && same a b && sameMembers as bs
  | _, _ => false

end

/-- The member of an object with a given name. -/
def get? (v : Json) (name : String) : Option Json :=
  match v with
  | .object members => (members.find? fun m => m.1 == name).map (·.2)
  | _ => none

end Json

end ListQuery
