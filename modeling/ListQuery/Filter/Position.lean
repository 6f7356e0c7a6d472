/-
Places in a filter's text. A position counts bytes from zero, and lines and columns from one; a
column is one character and only a line feed starts a new line. A span is a stretch of the text.
-/
import ListQuery.Text.Digits

namespace ListQuery.Filter

structure Position where
  offset : Nat
  line : Nat
  column : Nat
deriving DecidableEq, Repr

namespace Position

/-- The front of a text. -/
def start : Position := ⟨0, 1, 1⟩

instance : Inhabited Position := ⟨start⟩

/-- The position just past a character that stands at `p`. -/
def advance (p : Position) (c : Char) : Position :=
  if c = '\n' then ⟨p.offset + c.utf8Size, p.line + 1, 1⟩
  else ⟨p.offset + c.utf8Size, p.line, p.column + 1⟩

/-- The position just past a text that stands at `p`. -/
def after (p : Position) (text : List Char) : Position :=
  text.foldl advance p

/-- How a position is written for a reader. -/
def render (p : Position) : String :=
  Text.decimal p.line ++ ":" ++ Text.decimal p.column ++ " (byte " ++ Text.decimal p.offset ++ ")"

@[simp] theorem after_nil (p : Position) : p.after [] = p := rfl

@[simp] theorem after_cons (p : Position) (c : Char) (cs : List Char) :
    p.after (c :: cs) = (p.advance c).after cs := rfl

theorem after_append (p : Position) (cs ds : List Char) :
    p.after (cs ++ ds) = (p.after cs).after ds := by
  simp [after, List.foldl_append]

end Position

/-- A stretch of the text: where it starts, and the byte offset just past it. -/
structure Span where
  start : Position
  stop : Nat
deriving DecidableEq, Repr

namespace Span

/-- Length in bytes. -/
def length (s : Span) : Nat := s.stop - s.start.offset

def isEmpty (s : Span) : Bool := s.length == 0

end Span

/-- A problem told to whoever listens: its place and its cause. -/
structure Report (κ : Type) where
  pos : Position
  cause : κ
deriving DecidableEq, Repr

end ListQuery.Filter
