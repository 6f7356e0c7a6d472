/-
What a filter may hold and how blanks are taken.
-/
import ListQuery.Json.Decode
import ListQuery.Number.Word
import ListQuery.Text.Shown

namespace ListQuery.Filter

/-- Nesting allowed unless said otherwise. -/
def defaultMaxDepth : Nat := 200

structure ParserOptions where
  /-- One blank around `AND` and `OR`, after `NOT` and between factors, and none inside argument
  lists and literals. -/
  strictWhitespace : Bool := false
  enableStructs : Bool := false
  enableArrays : Bool := false
  /-- `IN` is a comparator. -/
  enableIn : Bool := false
  /-- Nesting of expressions and comparables. -/
  maxDepth : Nat := defaultMaxDepth
deriving DecidableEq, Repr

namespace ParserOptions

/-- All extensions of the grammar. -/
def allExtensions : ParserOptions :=
  { enableStructs := true, enableArrays := true, enableIn := true }

def strict (o : ParserOptions) : ParserOptions := { o with strictWhitespace := true }

open Json.Raw (record? defaulted? bool? nat?) in
/-- Options as a record, each member with its default. -/
def ofRaw? (r : Json.Raw) : Option ParserOptions := do
  let slots ← record?
    ["strict_whitespace", "enable_structs", "enable_arrays", "enable_in", "max_depth"]
    Json.maxDepth r
  match slots with
  | [strict, structs, arrays, isIn, depth] =>
    some {
      strictWhitespace := ← defaulted? false bool? strict
      enableStructs := ← defaulted? false bool? structs
      enableArrays := ← defaulted? false bool? arrays
      enableIn := ← defaulted? false bool? isIn
      maxDepth := ← defaulted? defaultMaxDepth (nat? Number.Word.maxNat64) depth }
  | _ => none

open Text in
/-- Options shown for inspection; `listening` says whether somebody takes the reports. -/
def shown (o : ParserOptions) (listening : Bool) : String :=
  shownRecord "ParserOptions" [
    ("strict_whitespace", shownBool o.strictWhitespace),
    ("enable_structs", shownBool o.enableStructs),
    ("enable_arrays", shownBool o.enableArrays),
    ("enable_in", shownBool o.enableIn),
    ("max_depth", decimal o.maxDepth),
    ("error_callback", shownBool listening)]

end ParserOptions

end ListQuery.Filter
