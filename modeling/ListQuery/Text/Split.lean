/-!
Text cut at a separator and put together again. Cutting always gives at least one piece, and putting
the pieces together gives the text back (`join_split`).
-/

namespace ListQuery.Text

/-- Puts a character in front of the first piece. -/
def consPiece (c : Char) : List (List Char) → List (List Char)
  | [] => [[c]]
  | p :: ps => (c :: p) :: ps

/-- The pieces between separators, empty ones among them. -/
def split (sep : Char) : List Char → List (List Char)
  | [] => [[]]
  | c :: cs => if c = sep then [] :: split sep cs else consPiece c (split sep cs)

/-- The pieces with a separator between each two. -/
def join (sep : Char) : List (List Char) → List Char
  | [] => []
  | [p] => p
  | p :: q :: ps => p ++ sep :: join sep (q :: ps)

/-- The pieces of a text. -/
def splitText (sep : Char) (text : String) : List String :=
  (split sep text.toList).map String.ofList

/-- A text without the separators at its two ends. -/
def trim (sep : Char) (cs : List Char) : List Char :=
  let front := cs.dropWhile (· == sep)
  (front.reverse.dropWhile (· == sep)).reverse

theorem consPiece_ne_nil (c : Char) (ps : List (List Char)) : consPiece c ps ≠ [] := by
  cases ps <;> simp [consPiece]

theorem split_ne_nil (sep : Char) (cs : List Char) : split sep cs ≠ [] := by
  cases cs with
  | nil => simp [split]
  | cons c cs =>
    rw [split]
    split
    · simp
    · exact consPiece_ne_nil c _

theorem join_cons_nil (sep : Char) {ps : List (List Char)} (h : ps ≠ []) :
    join sep ([] :: ps) = sep :: join sep ps := by
  cases ps with
  | nil => exact absurd rfl h
  | cons p ps => rfl

theorem join_consPiece (sep c : Char) (ps : List (List Char)) :
    join sep (consPiece c ps) = c :: join sep ps := by
  match ps with
  | [] => rfl
  | [_] => rfl
  | _ :: _ :: _ => rfl

theorem join_split (sep : Char) (cs : List Char) : join sep (split sep cs) = cs := by
  induction cs with
  | nil => rfl
  | cons c cs ih =>
    rw [split]
    split
    · next h => rw [join_cons_nil sep (split_ne_nil sep cs), ih, h]
    · rw [join_consPiece, ih]

end ListQuery.Text
