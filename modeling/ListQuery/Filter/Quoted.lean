/-!
Quoted strings of a filter. Between the quotes a backslash keeps the meaning of the next character
from closing the string: before the quote or a backslash it is dropped, before anything else it
stands for itself.
-/

namespace ListQuery.Filter.Quoted

/-- The quote that a string is written with. -/
def quoteOf (raw : String) : Char := raw.toList.headD '"'

/-- Drops the backslash before a quote or a backslash. -/
def unescape (quote : Char) : List Char → List Char
  | [] => []
  | '\\' :: c :: cs =>
    if c = quote ∨ c = '\\' then c :: unescape quote cs else '\\' :: c :: unescape quote cs
  | c :: cs => c :: unescape quote cs

/-- Puts a backslash before each quote and each backslash. -/
def escape (quote : Char) : List Char → List Char
  | [] => []
  | c :: cs => if c = quote ∨ c = '\\' then '\\' :: c :: escape quote cs else c :: escape quote cs

/-- What stands between the quotes; a text without a pair of quotes is taken whole. -/
def inner (raw : String) : List Char :=
  match raw.toList with
  | q :: cs => if cs.getLast? = some q then cs.dropLast else q :: cs
  | [] => []

/-- The text that a quoted string stands for. Without a backslash it is what stands between the
quotes. -/
def value (raw : String) : String :=
  let content := inner raw
  String.ofList (if content.contains '\\' then unescape (quoteOf raw) content else content)

/-- A text between quotes. -/
def wrap (quote : Char) (text : String) : String :=
  String.ofList (quote :: escape quote text.toList ++ [quote])

/-- Puts a text in the place of a character wherever it stands. -/
def replace (c : Char) (text cs : List Char) : List Char :=
  cs.flatMap fun d => if d = c then text else [d]

/-- A text shown between double quotes: first each backslash is doubled, then each quote gets one. -/
def shown (text : String) : String :=
  let doubled := replace '\\' ['\\', '\\'] text.toList
  String.ofList ('"' :: replace '"' ['\\', '"'] doubled ++ ['"'])

/-- Dropping backslashes undoes putting them. -/
theorem unescape_escape (quote : Char) (cs : List Char) :
    unescape quote (escape quote cs) = cs := by
  induction cs with
  | nil => rfl
  | cons c cs ih =>
    by_cases h : c = quote ∨ c = '\\'
    · simp [escape, unescape, h, ih]
    · have hb : c ≠ '\\' := fun e => h (.inr e)
      simp only [escape, h, ↓reduceIte]
      rw [unescape.eq_3 _ _ _ (fun _ _ e _ => hb e), ih]

theorem unescape_of_not_mem (quote : Char) {cs : List Char} (h : '\\' ∉ cs) :
    unescape quote cs = cs := by
  induction cs with
  | nil => rfl
  | cons c cs ih =>
    rw [List.mem_cons, not_or] at h
    rw [unescape.eq_3 _ _ _ fun _ _ hc _ => h.1 hc.symm, ih h.2]

/-- A text without a backslash needs no case of its own. -/
theorem value_eq (raw : String) : value raw = String.ofList (unescape (quoteOf raw) (inner raw)) := by
  unfold value
  dsimp only
  split
  · rfl
  · rename_i h
    rw [unescape_of_not_mem _ (by simpa using h)]

/-- Quotes around a text are taken off again. -/
theorem value_wrap (quote : Char) (text : String) : value (wrap quote text) = text := by
  have hquote : quoteOf (wrap quote text) = quote := by simp [quoteOf, wrap]
  have hinner : inner (wrap quote text) = escape quote text.toList := by simp [inner, wrap]
  rw [value_eq, hquote, hinner, unescape_escape, String.ofList_toList]

theorem replace_cons (c : Char) (text : List Char) (d : Char) (cs : List Char) :
    replace c text (d :: cs) = (if d = c then text else [d]) ++ replace c text cs := rfl

/-- The second replacement leaves the backslashes of the first one alone, so both together put one
backslash before each character that needs it. -/
theorem replace_replace (cs : List Char) :
    replace '"' ['\\', '"'] (replace '\\' ['\\', '\\'] cs) = escape '"' cs := by
  induction cs with
  | nil => rfl
  | cons c cs ih =>
    by_cases hb : c = '\\'
    · simp [escape, replace_cons, hb, ih]
    · by_cases hq : c = '"'
      · simp [escape, replace_cons, hq, ih]
      · simp [escape, replace_cons, hb, hq, ih]

/-- A shown text is the text between double quotes. -/
theorem shown_eq_wrap (text : String) : shown text = wrap '"' text := by
  simp only [shown, wrap, replace_replace]

end ListQuery.Filter.Quoted
