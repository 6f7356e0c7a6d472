/-
The text of values and expressions.
-/
import ListQuery.Codec.Hex
import ListQuery.Filter.Expr
import ListQuery.Number.Shortest

namespace ListQuery.Filter

open Number

/-- Numbers stand without an exponent from a ten thousandth on and below ten to the sixteenth; a tie
goes up. -/
def floatLayout : Layout := ⟨-3, 16, .up⟩

def MapKey.render : MapKey → String
  | .string s => Quoted.shown s
  | .bool b => Text.shownBool b
  | .int64 n => Text.signedDecimal n
  | .uint64 n => Text.decimal n

def SelectorStep.render : SelectorStep → String
  | .field f => "." ++ f.name
  | .key k _ => "[" ++ k.render ++ "]"

/-- Fields with dots between them, keys of maps in brackets. -/
def Selector.render (s : Selector) : String :=
  s.head.name ++ String.join (s.steps.map SelectorStep.render)

/-- Items with a separator between them, inside brackets. -/
def enclosed (opening separator closing : String) (items : List String) : String :=
  opening ++ String.intercalate separator items ++ closing

mutual

def Value.render : Value → String
  | .null => "null"
  | .bool b => Text.shownBool b
  | .int64 n => Text.signedDecimal n
  | .uint64 n => Text.decimal n
  | .float64 x => floatLayout.render x
  | .string s => Quoted.shown s
  | .bytes bs => "0x" ++ Hex.encode bs
  | .timestamp t => t.render
  | .duration d => d.render
  | .enum n => "enum(" ++ Text.signedDecimal n ++ ")"
  | .message typeName fields => typeName ++ enclosed "\x7b" ", " "\x7d" (renderFields fields)

def Expr.render : Expr → String
  | .compare left c right => left.render ++ " " ++ c.text ++ " " ++ right.render
  | .and items => enclosed "(" " AND " ")" (renderAll items)
  | .or items => enclosed "(" " OR " ")" (renderAll items)
  | .not item => "NOT " ++ item.render
  | .field s => s.render
  | .call package name args _ =>
    (if package.isEmpty then "" else package ++ ".") ++ name ++
      enclosed "(" ", " ")" (renderAll args)
  | .value v => v.render
  | .array items => enclosed "[" ", " "]" (renderAll items)
  | .map entries => enclosed "\x7b" ", " "\x7d" (renderEntries entries)

def renderAll : List Expr → List String
  | [] => []
  | e :: es => e.render :: renderAll es

def renderEntries : List (Expr × Expr) → List String
  | [] => []
  | (k, v) :: es => (k.render ++ ": " ++ v.render) :: renderEntries es

def renderFields : List (String × Expr) → List String
  | [] => []
  | (name, v) :: fs => (name ++ ": " ++ v.render) :: renderFields fs

end

end ListQuery.Filter
