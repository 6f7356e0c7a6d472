/-
Seams of written text: which pieces read back before what. Delimiters and strings do so before
anything, words and comparators before a blank, a blank before text that is not white, a leaf before
text that cannot continue it, and a dash before anything but a digit.
-/
import ListQuery.Proofs.Token.Chain

namespace ListQuery.Filter

open Text

namespace Piece

theorem lexes_leftParen (r : List Char) : Lexes ⟨.leftParen, "("⟩ r := ⟨'(', [], rfl, rfl⟩
theorem lexes_rightParen (r : List Char) : Lexes ⟨.rightParen, ")"⟩ r := ⟨')', [], rfl, rfl⟩
theorem lexes_leftBracket (r : List Char) : Lexes ⟨.leftBracket, "["⟩ r := ⟨'[', [], rfl, rfl⟩
theorem lexes_rightBracket (r : List Char) : Lexes ⟨.rightBracket, "]"⟩ r := ⟨']', [], rfl, rfl⟩

theorem lexes_leftBrace (r : List Char) : Lexes ⟨.leftBrace, "\x7b"⟩ r :=
  ⟨'\x7b', [], rfl, rfl⟩

theorem lexes_rightBrace (r : List Char) : Lexes ⟨.rightBrace, "\x7d"⟩ r :=
  ⟨'\x7d', [], rfl, rfl⟩

theorem lexes_comma (r : List Char) : comma.Lexes r := ⟨',', [], rfl, rfl⟩
theorem lexes_dot (r : List Char) : dot.Lexes r := ⟨'.', [], rfl, rfl⟩
theorem lexes_colon (r : List Char) : colon.Lexes r := ⟨':', [], rfl, rfl⟩

/-- Text that is not white in front, so that a blank before it ends there. -/
def Dark (r : List Char) : Prop := ∀ c ∈ r.head?, isWhite c = false

theorem lexes_blank {r : List Char} (h : Dark r) : blank.Lexes r := by
  refine ⟨' ', [], rfl, ?_⟩
  show (Kind.whitespace, r.dropWhile isWhite) = _
  rw [dropWhile_eq_self h]
  rfl

theorem string_escape {quote : Char} (hq : quote ≠ '\\') (cs r : List Char) :
    Lexeme.string quote (Quoted.escape quote cs ++ quote :: r) = (.string, r) := by
  induction cs with
  | nil =>
    rw [Quoted.escape, List.nil_append, Lexeme.string_cons hq]
    simp
  | cons c cs ih =>
    rw [Quoted.escape]
    split
    · exact ih
    · rename_i hc
      rw [List.cons_append, Lexeme.string_cons fun hb => hc (.inr hb),
        if_neg fun he => hc (.inl he), ih]

/-- A text between quotes is a string wherever it stands. -/
theorem lexes_wrap {quote : Char} (hq : quote = '"' ∨ quote = '\'') (text : String)
    (r : List Char) : Lexes ⟨.string, Quoted.wrap quote text⟩ r := by
  refine ⟨quote, Quoted.escape quote text.toList ++ [quote], by simp [Quoted.wrap], ?_⟩
  rw [List.append_assoc, List.singleton_append]
  rcases hq with rfl | rfl
  · exact string_escape (by decide) _ r
  · exact string_escape (by decide) _ r

theorem lexes_notWord (r : List Char) : Lexes ⟨.notWord, "NOT"⟩ (' ' :: r) :=
  ⟨'N', ['O', 'T'], rfl, rfl⟩

theorem lexes_andWord (r : List Char) : Lexes ⟨.andWord, "AND"⟩ (' ' :: r) :=
  ⟨'A', ['N', 'D'], rfl, rfl⟩

theorem lexes_orWord (r : List Char) : Lexes ⟨.orWord, "OR"⟩ (' ' :: r) :=
  ⟨'O', ['R'], rfl, rfl⟩

theorem lexes_comparator (c : Comparator) (r : List Char) :
    Lexes ⟨c.kind, c.text⟩ (' ' :: r) := by
  cases c with
  | equals => exact ⟨'=', [], rfl, rfl⟩
  | notEquals => exact ⟨'!', ['='], rfl, rfl⟩
  | lessThan => exact ⟨'<', [], rfl, rfl⟩
  | lessEquals => exact ⟨'<', ['='], rfl, rfl⟩
  | greaterThan => exact ⟨'>', [], rfl, rfl⟩
  | greaterEquals => exact ⟨'>', ['='], rfl, rfl⟩
  | has => exact ⟨':', [], rfl, rfl⟩
  | isIn => exact ⟨'I', ['N'], rfl, rfl⟩

/-- A dash before a digit is a negative number. -/
theorem lexes_minus_iff {r : List Char} : Lexes ⟨.minus, "-"⟩ r ↔ startsDigit r = false := by
  constructor
  · rintro ⟨c, cs, ht, hl⟩
    obtain ⟨rfl, rfl⟩ := List.cons.inj (show ['-'] = c :: cs from ht)
    cases r with
    | nil => rfl
    | cons d r =>
      cases hd : d.isDigit with
      | false => simp [startsDigit, hd]
      | true =>
        have := lexeme_dash_isNumeral hd r
        rw [show lexeme '-' (d :: r) = (.minus, d :: r) from hl] at this
        cases this
  · exact fun h => ⟨'-', [], rfl, lexeme_dash h⟩

/-- A text that is cut is dark where a piece other than a blank is in front. -/
theorem Lexes.dark {p : Piece} {r₀ : List Char} (h : p.Lexes r₀) (hk : p.kind ≠ .whitespace)
    (r : List Char) : Dark (p.text.toList ++ r) := by
  obtain ⟨c, cs, ht, hiff⟩ := h.head
  intro d hd
  rw [ht, List.cons_append, List.head?_cons, Option.mem_some_iff] at hd
  subst hd
  cases hw : isWhite c with
  | false => rfl
  | true => exact absurd (hiff.1 hw) hk

/-! ## What stops a leaf -/

/-- The text ends, or goes on with a blank or a delimiter that can stand behind a leaf. -/
def Stops (r : List Char) : Prop :=
  ∀ c ∈ r.head?, c ∈ [' ', ':', ',', '(', ')', '[', ']', '\x7b', '\x7d']

theorem stops_nil : Stops [] := by simp [Stops]

theorem stops_cons {c : Char}
    (h : c ∈ [' ', ':', ',', '(', ')', '[', ']', '\x7b', '\x7d']) (r : List Char) :
    Stops (c :: r) := by
  intro d hd
  rw [List.head?_cons, Option.mem_some_iff] at hd
  exact hd ▸ h

theorem Stops.closes {r : List Char} (h : Stops r) (r₀ : List Char) : Closes r₀ r := by
  cases r with
  | nil => exact ⟨rfl, by simp, by simp [Lexeme.fraction?]⟩
  | cons c r =>
    have hc := h c (by simp)
    have hall : [' ', ':', ',', '(', ')', '[', ']', '\x7b', '\x7d'].all
        (fun d => isWordChar d == false && d != '-' && d != '.') = true := by decide
    have hstop := List.all_eq_true.1 hall c hc
    simp only [Bool.and_eq_true, beq_iff_eq, bne_iff_ne] at hstop
    obtain ⟨⟨hword, hdash⟩, hpoint⟩ := hstop
    refine ⟨by simpa [Lexeme.startsWord] using hword, by simp [hdash], ?_⟩
    have : Lexeme.fraction? (c :: r) = none := by
      unfold Lexeme.fraction?
      split
      · rename_i he
        exact absurd (List.cons.inj he).1 hpoint
      · rfl
    simp [this]

theorem Lexes.of_stops {p : Piece} {r₀ r : List Char} (h : p.Lexes r₀)
    (hk : p.kind.isLeaf = true) (hr : Stops r) : p.Lexes r :=
  h.of_closes hk (hr.closes r₀)

/-- A delimiter: its kind says its text, which reads back anywhere and stops a leaf. -/
structure Delimiter (p : Piece) : Prop where
  spelling : p.kind.spelling? = some p.text
  kind : p.kind ≠ .whitespace
  lexes : ∀ r, p.Lexes r
  stops : ∀ r, Stops (p.text.toList ++ r)

theorem delimiter_leftParen : Delimiter ⟨.leftParen, "("⟩ :=
  ⟨rfl, by simp, lexes_leftParen, fun r => stops_cons (c := '(') (by simp) r⟩

theorem delimiter_rightParen : Delimiter ⟨.rightParen, ")"⟩ :=
  ⟨rfl, by simp, lexes_rightParen, fun r => stops_cons (c := ')') (by simp) r⟩

theorem delimiter_leftBracket : Delimiter ⟨.leftBracket, "["⟩ :=
  ⟨rfl, by simp, lexes_leftBracket, fun r => stops_cons (c := '[') (by simp) r⟩

theorem delimiter_rightBracket : Delimiter ⟨.rightBracket, "]"⟩ :=
  ⟨rfl, by simp, lexes_rightBracket, fun r => stops_cons (c := ']') (by simp) r⟩

theorem delimiter_leftBrace : Delimiter ⟨.leftBrace, "\x7b"⟩ :=
  ⟨rfl, by simp, lexes_leftBrace, fun r => stops_cons (c := '\x7b') (by simp) r⟩

theorem delimiter_rightBrace : Delimiter ⟨.rightBrace, "\x7d"⟩ :=
  ⟨rfl, by simp, lexes_rightBrace, fun r => stops_cons (c := '\x7d') (by simp) r⟩

theorem delimiter_comma : Delimiter comma :=
  ⟨rfl, by simp [comma], lexes_comma, fun r => stops_cons (c := ',') (by simp) r⟩

theorem delimiter_colon : Delimiter colon :=
  ⟨rfl, by simp [colon], lexes_colon, fun r => stops_cons (c := ':') (by simp) r⟩

@[simp] theorem ofPath_nil (q : Quoting) : ofPath q [] = [] := rfl

@[simp] theorem ofPath_singleton (q : Quoting) (l : Leaf) : ofPath q [l] = [ofLeaf q l] := rfl

theorem ofPath_cons_cons (q : Quoting) (l l' : Leaf) (ls : List Leaf) :
    ofPath q (l :: l' :: ls) = ofLeaf q l :: dot :: ofPath q (l' :: ls) := by
  simp [ofPath]

theorem ofPath_cons (q : Quoting) (l : Leaf) (ls : List Leaf) :
    ofPath q (l :: ls) = ofLeaf q l :: ls.flatMap fun l => [dot, ofLeaf q l] := by
  induction ls generalizing l with
  | nil => rfl
  | cons l' ls ih => rw [ofPath_cons_cons, ih l']; rfl

/-- Where a point and more text follow, the first character of that text decides what the point
means. -/
theorem closes_point {d : Char} {r r' : List Char} : Closes ('.' :: d :: r) ('.' :: d :: r') := by
  refine ⟨rfl, by simp, ?_⟩
  cases hd : d.isDigit <;> simp [Lexeme.fraction?, hd]

/-- A name that has been read reads back wherever its last leaf is stopped. -/
theorem chain_ofPath {r₀ r : List Char} (hr : Stops r) : ∀ {path : List Leaf},
    Chain Lexes (ofPath .quoted path) r₀ → Chain Lexes (ofPath .quoted path) r
  | [], _ => trivial
  | [l], h => by
    simp only [ofPath_singleton, chain_cons, chars_nil, List.nil_append] at h ⊢
    exact ⟨h.1.of_stops l.leaf hr, trivial⟩
  | l :: l' :: ls, h => by
    rw [ofPath_cons_cons] at h ⊢
    simp only [chain_cons, chars_cons] at h ⊢
    obtain ⟨h₁, -, h₂⟩ := h
    refine ⟨?_, lexes_dot _, chain_ofPath hr h₂⟩
    -- the leaf is followed by the point and the first character of the next leaf
    have hfirst : ∃ d cs, chars (ofPath .quoted (l' :: ls)) = d :: cs := by
      rw [ofPath_cons] at h₂ ⊢
      obtain ⟨d, cs, ht, -⟩ := h₂.1
      exact ⟨d, cs ++ _, by rw [chars_cons, ht]; rfl⟩
    obtain ⟨d, cs, hd⟩ := hfirst
    rw [hd] at h₁ ⊢
    exact h₁.of_closes l.leaf closes_point

end Piece

end ListQuery.Filter
