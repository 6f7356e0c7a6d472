/-
Values shown for inspection: a text stands between double quotes with everything that has no shape
of its own escaped, a record stands as its name and its fields.
-/
import ListQuery.Text.Digits

namespace ListQuery.Text

/-- One character of a shown text. -/
def shownChar (c : Char) : String :=
  match c with
  | '\x00' => "\\0"
  | '\t' => "\\t"
  | '\r' => "\\r"
  | '\n' => "\\n"
  | '\\' => "\\\\"
  | '"' => "\\\""
  | c => if isShown c then String.singleton c else "\\u\x7b" ++ paddedHex 1 c.toNat ++ "\x7d"

/-- A text between double quotes. -/
def shown (text : String) : String :=
  "\"" ++ String.join (text.toList.map shownChar) ++ "\""

/-- A list of items that are already shown. -/
def shownList (items : List String) : String :=
  "[" ++ String.intercalate ", " items ++ "]"

/-- A record: its name and its fields in order, each already shown. -/
def shownRecord (name : String) (fields : List (String × String)) : String :=
  name ++ " \x7b " ++ String.intercalate ", " (fields.map fun f => f.1 ++ ": " ++ f.2) ++ " \x7d"

def shownBool (b : Bool) : String :=
  if b then "true" else "false"

end ListQuery.Text
