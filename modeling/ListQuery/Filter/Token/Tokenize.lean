/-
Cutting a whole text into tokens. The tokens stand one behind the other and cover the text; the
last one is the end of the text.
-/
import ListQuery.Filter.Token.Suffix

namespace ListQuery.Filter

namespace Token

/-- The part of `cs` before its end `rest`. -/
def consumed (cs rest : List Char) : List Char :=
  cs.take (cs.length - rest.length)

/-- The token at the front of the text at `pos`, and the text left behind it. -/
def front (pos : Position) : List Char → Token × List Char
  | [] => (.eof pos, [])
  | c :: cs =>
    let l := lexeme c cs
    (⟨l.1, String.ofList (consumed (c :: cs) l.2), pos⟩, l.2)

/-- The position just past a token. -/
def next (t : Token) : Position := t.pos.after t.text.toList

/-- The tokens of the text at `pos`, without the end of the text. -/
def scan (pos : Position) (cs : List Char) : List Token :=
  match cs with
  | [] => []
  | c :: cs =>
    let t := (front pos (c :: cs)).1
    t :: scan t.next (lexeme c cs).2
termination_by cs.length
decreasing_by
  have := (lexeme_suffix c cs).length_le
  simp only [List.length_cons]
  omega

end Token

/-- The position just past a whole text. -/
def endOf (input : String) : Position :=
  Position.start.after input.toList

/-- All tokens of a text, the end of the text last. -/
def tokenize (input : String) : List Token :=
  Token.scan .start input.toList ++ [.eof (endOf input)]

namespace Token

theorem consumed_append {cs rest : List Char} (h : rest <:+ cs) :
    consumed cs rest ++ rest = cs := by
  obtain ⟨t, rfl⟩ := h
  simp [consumed]

theorem front_covers (pos : Position) (cs : List Char) :
    (front pos cs).1.text.toList ++ (front pos cs).2 = cs := by
  rcases cs with _ | ⟨c, cs⟩
  · rfl
  · simp only [front, String.toList_ofList]
    exact consumed_append ((lexeme_suffix c cs).trans (List.suffix_cons c cs))

end Token

end ListQuery.Filter
