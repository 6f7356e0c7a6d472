/-
Resource names: segments between slashes, in which collections and the ids in them take turns, such
as `publishers/123/books/les-miserables`.
-/
import ListQuery.Text.Digits
import ListQuery.Text.Split

namespace ListQuery.ResourceName

/-- The segments in order. The empty name has none. -/
def segments (name : String) : List String :=
  if name = "" then [] else Text.splitText '/' name

def segmentCount (name : String) : Nat := (segments name).length

/-- The segment at an index; a negative one counts from the end, and -1 is the last. -/
def segment? (name : String) (index : Int) : Option String :=
  let position := if index < 0 then segmentCount name + index else index
  if position < 0 then none else (segments name)[position.toNat]?

/-- The name without its last collection and id. There is none where nothing would be left. -/
def parent? (name : String) : Option String :=
  match (Text.split '/' name.toList).reverse with
  | _ :: _ :: rest =>
    match Text.join '/' rest.reverse with
    | [] => none
    | cs => some (String.ofList cs)
  | _ => none

/-- What a name can be refused for. -/
inductive Flaw where
  | empty
  | leadingSlash (name : String)
  | trailingSlash (name : String)
  | emptySegment (name : String) (index : Nat)
deriving DecidableEq, Repr

def Flaw.message : Flaw → String
  | .empty => "Resource name is empty"
  | .leadingSlash name => "Resource name '" ++ name ++ "' starts with '/'"
  | .trailingSlash name => "Resource name '" ++ name ++ "' ends with '/'"
  | .emptySegment name index =>
    "Resource name '" ++ name ++ "' has an empty segment at index " ++ Text.decimal index

/-- Checks that a name is not empty, has no slash at either end, and has no empty segment. -/
def validate (name : String) : Except Flaw Unit :=
  if name = "" then .error .empty
  else if name.toList.head? = some '/' then .error (.leadingSlash name)
  else if name.toList.getLast? = some '/' then .error (.trailingSlash name)
  else
    match (segments name).findIdx? String.isEmpty with
    | some index => .error (.emptySegment name index)
    | none => .ok ()

/-- The name made of fragments: slashes at their ends do not count, nor do fragments that have
nothing else. -/
def join (fragments : List String) : String :=
  let pieces := fragments.map fun f => Text.trim '/' f.toList
  String.ofList (Text.join '/' (pieces.filter fun p => !p.isEmpty))

end ListQuery.ResourceName
