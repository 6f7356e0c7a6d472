/-
Sort clauses: field paths with a direction each, separated by commas, such as
`create_time desc, author.name`. A clause is written with each item in its shortest form and one
blank after each comma, and what is written reads back.
-/
import ListQuery.Json.Decode
import ListQuery.Schema.Build
import ListQuery.Text.Split

namespace ListQuery

inductive Direction where
  | asc | desc
deriving DecidableEq, Repr

namespace Direction

def name : Direction → String
  | .asc => "asc"
  | .desc => "desc"

def ofName? : String → Option Direction
  | "asc" => some .asc
  | "desc" => some .desc
  | _ => none

/-- The direction that a word spells, in letters of either case. -/
def ofWord? (word : List Char) : Option Direction :=
  ofName? (String.ofList (word.map Char.toLower))

def isDescending : Direction → Bool
  | .asc => false
  | .desc => true

end Direction

/-- One sort key: a path of field names with dots between them, and its direction. -/
structure OrderField where
  path : String
  direction : Direction := .asc
deriving DecidableEq, Repr

namespace OrderField

def segments (f : OrderField) : List String := Text.splitText '.' f.path

/-- Ascending order goes without saying. -/
def render (f : OrderField) : String :=
  f.path ++ if f.direction.isDescending then " desc" else ""

end OrderField

/-- A sort clause. The empty one leaves the order open. -/
structure OrderBy where
  fields : List OrderField := []
deriving DecidableEq, Repr

namespace OrderBy

def render (o : OrderBy) : String :=
  String.intercalate ", " (o.fields.map OrderField.render)

/-! ## Reading -/

/-- What a reader looked for, with what stood there instead. -/
inductive Expected where
  | fieldName (found : Option Char)
  | direction (found : String)
  | separator (found : Char)
deriving DecidableEq, Repr

def Expected.message : Expected → String
  | .fieldName none => "expected a field name"
  | .fieldName (some c) => "expected a field name, found '" ++ String.singleton c ++ "'"
  | .direction word => "expected 'asc' or 'desc', found '" ++ word ++ "'"
  | .separator c => "expected ',' or end of input, found '" ++ String.singleton c ++ "'"

/-- Where reading stopped: what was looked for, and what was left. -/
structure Stop where
  expected : Expected
  rest : List Char

theorem length_dropWhile_le {α : Type} (p : α → Bool) (xs : List α) :
    (xs.dropWhile p).length ≤ xs.length :=
  (List.dropWhile_sublist p).length_le

/-- A path and what follows it. -/
def readPath : List Char → Except Stop (List Char × List Char)
  | [] => .error ⟨.fieldName none, []⟩
  | c :: cs =>
    if Text.isWordStart c then
      match _h : cs.dropWhile Text.isWordChar with
      | '.' :: r =>
        match readPath r with
        | .ok (path, rest) => .ok (c :: cs.takeWhile Text.isWordChar ++ '.' :: path, rest)
        | .error stop => .error stop
      | rest => .ok (c :: cs.takeWhile Text.isWordChar, rest)
    else .error ⟨.fieldName (some c), c :: cs⟩
termination_by cs => cs.length
decreasing_by
  have := length_dropWhile_le Text.isWordChar cs
  simp only [_h, List.length_cons] at this ⊢
  omega

/-- A path, then a direction if a word follows after blanks; what stands after that. -/
def readField (cs : List Char) : Except Stop (OrderField × List Char) :=
  match readPath cs with
  | .error stop => .error stop
  | .ok (path, rest) =>
    let ahead := rest.dropWhile Text.isWhite
    match ahead.takeWhile Text.isWordChar with
    | [] => .ok (⟨String.ofList path, .asc⟩, rest)
    | word =>
      match Direction.ofWord? word with
      | some d => .ok (⟨String.ofList path, d⟩, ahead.dropWhile Text.isWordChar)
      | none => .error ⟨.direction (String.ofList word), ahead⟩

theorem readPath_append {cs path rest : List Char} (h : readPath cs = .ok (path, rest)) :
    path ++ rest = cs ∧ path ≠ [] := by
  fun_induction readPath cs generalizing path rest with
  | case1 => simp at h
  | case2 c cs _ r hr p t hp ih =>
    obtain ⟨rfl, rfl⟩ : _ = path ∧ t = rest := by simpa using h
    have hcut := List.takeWhile_append_dropWhile (p := Text.isWordChar) (l := cs)
    rw [hr, ← (ih hp).1] at hcut
    exact ⟨by rw [List.cons_append, List.append_assoc, List.cons_append, hcut],
      List.cons_ne_nil _ _⟩
  | case3 => simp at h
  | case4 c cs _ _ =>
    obtain ⟨rfl, rfl⟩ : _ = path ∧ _ = rest := by simpa using h
    exact ⟨by rw [List.cons_append, List.takeWhile_append_dropWhile], List.cons_ne_nil _ _⟩
  | case5 => simp at h

theorem readField_length {cs rest : List Char} {f : OrderField}
    (h : readField cs = .ok (f, rest)) : rest.length < cs.length := by
  unfold readField at h
  split at h
  · simp at h
  · next path r hp =>
    obtain ⟨rfl, hne⟩ := readPath_append hp
    have hpos : 0 < path.length := List.length_pos_iff.2 hne
    have hblank := length_dropWhile_le Text.isWhite r
    have hword := length_dropWhile_le Text.isWordChar (r.dropWhile Text.isWhite)
    simp only at h
    split at h
    · simp only [Except.ok.injEq, Prod.mk.injEq] at h
      rw [← h.2, List.length_append]
      omega
    · split at h
      · simp only [Except.ok.injEq, Prod.mk.injEq] at h
        rw [← h.2, List.length_append]
        omega
      · simp at h

/-- At least one item, and commas between items. -/
def readFields (cs : List Char) : Except Stop (List OrderField) :=
  match _h : readField (cs.dropWhile Text.isWhite) with
  | .error stop => .error stop
  | .ok (f, rest) =>
    match _hr : rest.dropWhile Text.isWhite with
    | [] => .ok [f]
    | ',' :: r =>
      match readFields r with
      | .ok fs => .ok (f :: fs)
      | .error stop => .error stop
    | c :: r => .error ⟨.separator c, c :: r⟩
termination_by cs.length
decreasing_by
  have h1 := readField_length _h
  have h2 := length_dropWhile_le Text.isWhite cs
  have h3 := length_dropWhile_le Text.isWhite rest
  simp only [_hr, List.length_cons] at h3
  omega

/-- Why a text is no sort clause: what was looked for, and the byte at which. -/
structure ClauseError where
  pos : Nat
  expected : Expected
deriving DecidableEq, Repr

def ClauseError.message (e : ClauseError) : String :=
  "Invalid order_by at byte " ++ Text.decimal e.pos ++ ": " ++ e.expected.message

/-- The number of bytes that characters take up. -/
def byteCount : List Char → Nat
  | [] => 0
  | c :: cs => c.utf8Size + byteCount cs

/-- The sort clause of a text. Blanks alone are the empty clause. -/
def parse (text : String) : Except ClauseError OrderBy :=
  let cs := text.toList
  match cs.dropWhile Text.isWhite with
  | [] => .ok {}
  | rest =>
    match readFields rest with
    | .ok fields => .ok ⟨fields⟩
    | .error stop => .error ⟨byteCount cs - byteCount stop.rest, stop.expected⟩

def toJson (o : OrderBy) : Json :=
  .object [("fields", .array (o.fields.map fun f =>
    .object [("path", .string f.path), ("direction", .string f.direction.name)]))]

open Json.Raw (record? required? defaulted? str? list? choice?)

def fieldOfRaw? (depth : Nat) (r : Json.Raw) : Option OrderField := do
  match ← record? ["path", "direction"] depth r with
  | [path, direction] =>
    some {
      path := ← required? str? path
      direction := ← defaulted? .asc (choice? (depth - 1) Direction.ofName?) direction }
  | _ => none

def ofRaw? (depth : Nat) (r : Json.Raw) : Option OrderBy := do
  match ← record? ["fields"] depth r with
  | [fields] =>
    some { fields := ← required? (list? (depth - 1) (fieldOfRaw? (depth - 2))) fields }
  | _ => none

/-- The clause that a JSON text holds. -/
def ofJson? (text : String) : Option OrderBy :=
  (Json.Raw.ofString? text).bind (ofRaw? Json.maxDepth)

/-- Why a message cannot be sorted by a path. -/
inductive PathError where
  | unknownField (path message : String)
  | notTraversable (path segment : String)
deriving DecidableEq, Repr

def PathError.message : PathError → String
  | .unknownField path message => "Unknown field '" ++ path ++ "' in " ++ message
  | .notTraversable path segment =>
    "Cannot order by '" ++ path ++ "': '" ++ segment ++ "' is not a singular message field"

/-- The message that a path can go on into: that of a field which holds exactly one. -/
def singularMessage? (s : Schema) (f : Field) : Option Message :=
  if f.cardinality = .singular then s.messageOf? f else none

/-- Follows the rest of a path from a field on. -/
def checkSegments (s : Schema) (path : String) (current : Field) :
    List String → Except PathError Unit
  | [] => .ok ()
  | name :: names =>
    match singularMessage? s current with
    | none => .error (.notTraversable path current.name)
    | some m =>
      match m.field? name with
      | none => .error (.unknownField path m.fullName)
      | some f => checkSegments s path f names

def checkPath (s : Schema) (root : Message) (field : OrderField) : Except PathError Unit :=
  match field.segments with
  | [] => .error (.unknownField field.path root.fullName)
  | name :: names =>
    match root.field? name with
    | none => .error (.unknownField field.path root.fullName)
    | some f => checkSegments s field.path f names

/-- Checks every path against a message: each segment before the last is a singular message. -/
def validate (s : Schema) (root : Message) (o : OrderBy) : Except PathError Unit :=
  o.fields.forM (checkPath s root)

end OrderBy

end ListQuery
