/-
Pieces that read back. A piece reads back before a text when cutting its text off the front gives
the piece again (`Piece.Lexes`), and a run of pieces reads back when each does so before the rest of
the run (`Piece.Chain`, `Piece.Cut`). `scan_pieces_iff`: these runs are exactly what texts are cut
into.
-/
import ListQuery.Filter.Tree.Written
import ListQuery.Proofs.Token.Local

namespace ListQuery.Filter

open Text Time

/-- The kinds of a text that starts like a number. -/
def Kind.isNumeral : Kind → Bool
  | .int | .numeric | .hex | .oct | .duration | .timestamp | .illegal _ => true
  | _ => false

/-- Kinds that stand for text: blanks and the end do not. -/
def Kind.isSolid : Kind → Bool
  | .whitespace | .eof => false
  | _ => true

theorem Kind.isSolid_of_isNumeral {k : Kind} (h : k.isNumeral = true) : k.isSolid = true := by
  cases k <;> first | rfl | cases h

namespace Lexeme

theorem radix_isNumeral {kind : Kind} (hk : kind.isNumeral = true) (p : Char → Bool)
    (cs : List Char) : (radix kind p cs).1.isNumeral = true := by
  unfold radix
  split
  · simp only
    split
    · rfl
    · exact hk
  · rfl

theorem timestamp_isNumeral (year : Nat) (cs : List Char) :
    (timestamp year cs).1.isNumeral = true := by
  unfold timestamp
  split
  · split <;> rfl
  · rfl

theorem duration_isNumeral (previous : Option TimeUnit) (fractional : Bool) (unit : TimeUnit)
    (here rest : List Char) :
    (duration previous fractional unit here rest).1.isNumeral = true := by
  fun_induction duration previous fractional unit here rest with
  | case4 _ _ _ _ _ _ _ _ _ _ _ _ ih => exact ih
  | _ => rfl

theorem decimal_isNumeral (digits rest : List Char) : (decimal digits rest).1.isNumeral = true := by
  simp only [decimal]
  split
  · split
    · rfl
    · exact duration_isNumeral _ _ _ _ _
  · split
    · rfl
    · split
      · rfl
      · unfold runKind
        split <;> rfl

theorem number_isNumeral (negative : Bool) (d : Char) (cs : List Char) :
    (number negative d cs).1.isNumeral = true := by
  unfold number
  split
  · exact radix_isNumeral rfl _ _
  · exact radix_isNumeral rfl _ _
  · exact radix_isNumeral rfl _ _
  · exact radix_isNumeral rfl _ _
  · simp only
    split
    · split
      · exact timestamp_isNumeral _ _
      · exact decimal_isNumeral _ _
    · exact decimal_isNumeral _ _

theorem string_isSolid (quote : Char) (cs : List Char) : (string quote cs).1.isSolid = true := by
  fun_induction string quote cs with
  | case3 _ _ ih => exact ih
  | case5 _ _ _ _ _ ih => exact ih
  | _ => rfl

theorem word_isSolid (c : Char) (cs : List Char) : (word c cs).1.isSolid = true := by
  simp only [word, wordKind]
  split <;> rfl

theorem symbol_isSolid (c : Char) (cs : List Char) : (symbol c cs).1.isSolid = true := by
  unfold symbol
  split <;> rfl

end Lexeme

open Lexeme

theorem isWhite_of_isDigit {c : Char} (h : c.isDigit = true) : isWhite c = false :=
  isWhite_of_isWordChar (isWordChar_of_isDigit h)

/-- Only blanks are white. -/
theorem lexeme_isSolid {c : Char} (h : isWhite c = false) (cs : List Char) :
    (lexeme c cs).1.isSolid = true := by
  simp only [lexeme, h, Bool.false_eq_true, ↓reduceIte]
  split
  · exact Kind.isSolid_of_isNumeral (number_isNumeral _ _ _)
  split
  · cases cs with
    | nil => rfl
    | cons d cs =>
      simp only [dash]
      split
      · exact Kind.isSolid_of_isNumeral (number_isNumeral _ _ _)
      · exact symbol_isSolid _ _
  split
  · exact string_isSolid _ _
  split
  · exact word_isSolid _ _
  · exact symbol_isSolid _ _

theorem lexeme_isNumeral {c : Char} (h : c.isDigit = true) (cs : List Char) :
    (lexeme c cs).1.isNumeral = true := by
  simp only [lexeme, isWhite_of_isDigit h, h, Bool.false_eq_true, ↓reduceIte]
  exact number_isNumeral _ _ _

theorem lexeme_dash_isNumeral {d : Char} (h : d.isDigit = true) (cs : List Char) :
    (lexeme '-' (d :: cs)).1.isNumeral = true := by
  have : lexeme '-' (d :: cs) = number true d cs := by
    show (if d.isDigit = true then number true d cs else symbol '-' (d :: cs)) = _
    rw [if_pos h]
  rw [this]
  exact number_isNumeral _ _ _

/-- Whether a text starts with a digit. -/
def startsDigit (cs : List Char) : Bool := cs.head?.any Char.isDigit

theorem lexeme_dash {cs : List Char} (h : startsDigit cs = false) :
    lexeme '-' cs = (.minus, cs) := by
  cases cs with
  | nil => rfl
  | cons d cs =>
    show (if d.isDigit = true then number true d cs else symbol '-' (d :: cs)) = _
    rw [if_neg (by simpa [startsDigit] using h)]
    rfl

/-! ## Kinds with one spelling -/

/-- The text of the kinds that have only one. -/
def Kind.spelling? : Kind → Option String
  | .andWord => some "AND"
  | .orWord => some "OR"
  | .notWord => some "NOT"
  | .inWord => some "IN"
  | .equals => some "="
  | .notEquals => some "!="
  | .lessThan => some "<"
  | .lessEquals => some "<="
  | .greaterThan => some ">"
  | .greaterEquals => some ">="
  | .has => some ":"
  | .leftParen => some "("
  | .rightParen => some ")"
  | .leftBracket => some "["
  | .rightBracket => some "]"
  | .leftBrace => some "\x7b"
  | .rightBrace => some "\x7d"
  | .comma => some ","
  | .dot => some "."
  | .minus => some "-"
  | _ => none

theorem Kind.spelling?_of_isNumeral {k : Kind} (h : k.isNumeral = true) : k.spelling? = none := by
  cases k <;> first | rfl | cases h

theorem spelling?_string (quote : Char) (cs : List Char) :
    (string quote cs).1.spelling? = none := by
  fun_induction string quote cs with
  | case3 _ _ ih => exact ih
  | case5 _ _ _ _ _ ih => exact ih
  | _ => rfl

theorem spelling?_wordKind {w x : String} (h : (wordKind w).spelling? = some x) : w = x := by
  unfold wordKind at h
  split at h <;> first | exact Option.some.inj h | cases h

theorem spelling?_symbol {c : Char} {cs r : List Char} {k : Kind} {x : String}
    (h : symbol c cs = (k, r)) (hx : k.spelling? = some x) : c :: cs = x.toList ++ r := by
  unfold symbol at h
  split at h <;> obtain ⟨rfl, rfl⟩ := Prod.mk.inj h <;> cases hx <;> rfl

theorem lexeme_spelling {c : Char} {cs r : List Char} {k : Kind} {x : String}
    (h : lexeme c cs = (k, r)) (hx : k.spelling? = some x) : c :: cs = x.toList ++ r := by
  -- a number has no spelling of its own
  have hnumber : ∀ {negative : Bool} {d : Char} {ds : List Char},
      number negative d ds = (k, r) → c :: cs = x.toList ++ r := by
    intro negative d ds hn
    have := Kind.spelling?_of_isNumeral (number_isNumeral negative d ds)
    rw [hn, hx] at this
    cases this
  simp only [lexeme] at h
  split at h
  · rw [← (Prod.mk.inj h).1] at hx
    cases hx
  split at h
  · exact hnumber h
  split at h
  · rename_i hdash
    subst hdash
    cases cs with
    | nil => exact spelling?_symbol h hx
    | cons d cs =>
      simp only [dash] at h
      split at h
      · exact hnumber h
      · exact spelling?_symbol h hx
  split at h
  · have := spelling?_string c cs
    rw [h, hx] at this
    cases this
  split at h
  · obtain ⟨hk, rfl⟩ := Prod.mk.inj h
    rw [← hk] at hx
    rw [← spelling?_wordKind hx, String.toList_ofList, List.cons_append,
      List.takeWhile_append_dropWhile]
  · exact spelling?_symbol h hx

/-- A token without its place. -/
def Token.piece (t : Token) : Piece := ⟨t.kind, t.text⟩

namespace Piece

/-- The characters of a run of pieces. -/
def chars (ps : List Piece) : List Char := ps.flatMap fun p => p.text.toList

@[simp] theorem chars_nil : chars [] = [] := rfl

@[simp] theorem chars_cons (p : Piece) (ps : List Piece) :
    chars (p :: ps) = p.text.toList ++ chars ps := rfl

@[simp] theorem chars_append (ps qs : List Piece) : chars (ps ++ qs) = chars ps ++ chars qs :=
  List.flatMap_append

theorem toList_render (ps : List Piece) : (render ps).toList = chars ps := by
  simp [render, chars, String.toList_join, List.flatMap_map]

/-- The piece is the token in front when its text stands before `r`. -/
def Lexes (p : Piece) (r : List Char) : Prop :=
  ∃ c cs, p.text.toList = c :: cs ∧ lexeme c (cs ++ r) = (p.kind, r)

/-- Each piece of a run has a property together with the text behind it, which ends with `r`. -/
def Chain (R : Piece → List Char → Prop) : List Piece → List Char → Prop
  | [], _ => True
  | p :: ps, r => R p (chars ps ++ r) ∧ Chain R ps r

variable {R : Piece → List Char → Prop}

@[simp] theorem chain_nil (r : List Char) : Chain R [] r := trivial

@[simp] theorem chain_cons (p : Piece) (ps : List Piece) (r : List Char) :
    Chain R (p :: ps) r ↔ R p (chars ps ++ r) ∧ Chain R ps r := Iff.rfl

@[simp] theorem chain_append (ps qs : List Piece) (r : List Char) :
    Chain R (ps ++ qs) r ↔ Chain R ps (chars qs ++ r) ∧ Chain R qs r := by
  induction ps with
  | nil => simp
  | cons p ps ih => simp [ih, and_assoc]

theorem Chain.of_suffix {ps qs : List Piece} {r : List Char} (h : Chain R ps r)
    (hs : qs <:+ ps) : Chain R qs r := by
  obtain ⟨t, rfl⟩ := hs
  exact ((chain_append _ _ _).1 h).2

/-- The run is what its text is cut into. -/
def Cut (ps : List Piece) : Prop := Chain Lexes ps []

theorem Cut.of_suffix {ps qs : List Piece} (h : Cut ps) (hs : qs <:+ ps) : Cut qs :=
  Chain.of_suffix h hs

theorem Cut.head {p : Piece} {ps : List Piece} (h : Cut (p :: ps)) : p.Lexes (chars ps) := by
  simpa using h.1

/-! ## What reading back says about a piece -/

/-- The text starts with a white character exactly when the piece is a blank. -/
theorem Lexes.head {p : Piece} {r : List Char} (h : p.Lexes r) :
    ∃ c cs, p.text.toList = c :: cs ∧ (isWhite c = true ↔ p.kind = .whitespace) := by
  obtain ⟨c, cs, ht, hl⟩ := h
  refine ⟨c, cs, ht, fun hw => ?_, fun hk => ?_⟩
  · have : (lexeme c (cs ++ r)).1 = .whitespace := by simp [lexeme, hw]
    rw [hl] at this
    exact this
  · cases hw : isWhite c with
    | true => rfl
    | false =>
      have := lexeme_isSolid hw (cs ++ r)
      rw [hl, hk] at this
      cases this

theorem Lexes.ne_eof {p : Piece} {r : List Char} (h : p.Lexes r) : p.kind ≠ .eof := by
  obtain ⟨c, cs, ht, hl⟩ := h
  cases hw : isWhite c with
  | true =>
    have : (lexeme c (cs ++ r)).1 = .whitespace := by simp [lexeme, hw]
    rw [hl] at this
    simp [show p.kind = .whitespace from this]
  | false =>
    intro hk
    have := lexeme_isSolid hw (cs ++ r)
    rw [hl, hk] at this
    cases this

/-- What follows a blank is no blank. -/
theorem Lexes.after_blank {p : Piece} {r : List Char} (h : p.Lexes r) (hk : p.kind = .whitespace) :
    ∀ c ∈ r.head?, isWhite c = false := by
  obtain ⟨c, cs, ht, hl⟩ := h
  have hw : isWhite c = true := by
    obtain ⟨c', cs', ht', hiff⟩ := Lexes.head ⟨c, cs, ht, hl⟩
    rw [ht] at ht'
    rw [(List.cons.inj ht').1]
    exact hiff.2 hk
  simp only [lexeme, hw, ↓reduceIte, Prod.mk.injEq] at hl
  rw [← hl.2]
  exact head_dropWhile _ _

/-- A text has one piece in front. -/
theorem Lexes.unique {p q : Piece} {r r' : List Char} (hp : p.Lexes r) (hq : q.Lexes r')
    (h : p.text.toList ++ r = q.text.toList ++ r') : p = q ∧ r = r' := by
  obtain ⟨c, cs, ht, hl⟩ := hp
  obtain ⟨d, ds, ht', hl'⟩ := hq
  rw [ht, ht', List.cons_append, List.cons_append, List.cons.injEq] at h
  obtain ⟨rfl, hrest⟩ := h
  rw [hrest, hl'] at hl
  obtain ⟨hk, rfl⟩ := Prod.mk.inj hl
  have htext : p.text = q.text := by
    rw [← String.toList_inj, ht, ht', List.append_cancel_right hrest]
  refine ⟨?_, rfl⟩
  cases p
  cases q
  simp_all

/-- The kind of an operator or a delimiter says its text. -/
theorem Lexes.spelling {p : Piece} {r : List Char} (h : p.Lexes r) {x : String}
    (hx : p.kind.spelling? = some x) : p = ⟨p.kind, x⟩ := by
  obtain ⟨c, cs, ht, hl⟩ := h
  have hs := lexeme_spelling hl hx
  rw [← List.cons_append, ← ht] at hs
  have : p.text = x := String.toList_inj.1 (List.append_cancel_right hs)
  rw [← this]

theorem Lexes.eq_of_kind {p q : Piece} {r : List Char} (h : p.Lexes r) (hk : p.kind = q.kind)
    (hq : q.kind.spelling? = some q.text) : p = q := by
  rw [h.spelling (by rw [hk]; exact hq), hk]

/-- A leaf reads back before any text that cannot continue it. -/
theorem Lexes.of_closes {p : Piece} {r r' : List Char} (h : p.Lexes r) (hk : p.kind.isLeaf = true)
    (hc : Closes r r') : p.Lexes r' := by
  obtain ⟨c, cs, ht, hl⟩ := h
  obtain ⟨y, hy, hy'⟩ := lexeme_local hl hk
  have := List.append_cancel_right hy
  subst this
  exact ⟨c, cs, ht, hy' r' hc⟩

/-- A name starts with no digit. -/
theorem Lexes.not_startsDigit {p : Piece} {r : List Char} (h : p.Lexes r)
    (hk : p.kind.isNumeral = false) (t : List Char) :
    startsDigit (p.text.toList ++ t) = false := by
  obtain ⟨c, cs, ht, hl⟩ := h
  rw [ht]
  cases hc : c.isDigit with
  | false => simp [startsDigit, hc]
  | true =>
    have := lexeme_isNumeral hc (cs ++ r)
    rw [hl, hk] at this
    cases this

theorem consumed_append_left (cs r : List Char) : Token.consumed (cs ++ r) r = cs := by
  simp [Token.consumed]

theorem front_of_lexes {p : Piece} {r : List Char} (h : p.Lexes r) (pos : Position) :
    Token.front pos (p.text.toList ++ r) = (⟨p.kind, p.text, pos⟩, r) := by
  obtain ⟨c, cs, ht, hl⟩ := h
  rw [ht, List.cons_append, Token.front, hl]
  rw [← List.cons_append, consumed_append_left, ← ht, String.ofList_toList]

theorem lexes_front {pos : Position} {c : Char} {cs : List Char} :
    (Token.front pos (c :: cs)).1.piece.Lexes (lexeme c cs).2 := by
  obtain ⟨y, hy⟩ := lexeme_suffix c cs
  refine ⟨c, y, ?_, ?_⟩
  · simp only [Token.front, Token.piece, String.toList_ofList]
    conv => lhs; rw [← hy, ← List.cons_append, hy]
    rw [consumed_append_left]
  · rw [hy]
    rfl

theorem scan_cons (pos : Position) (c : Char) (cs : List Char) :
    Token.scan pos (c :: cs) =
      (Token.front pos (c :: cs)).1 ::
        Token.scan (Token.front pos (c :: cs)).1.next (Token.front pos (c :: cs)).2 := by
  rw [Token.scan]
  rfl

theorem chain_scan (pos : Position) (cs : List Char) :
    cs = chars ((Token.scan pos cs).map Token.piece) ∧
      Cut ((Token.scan pos cs).map Token.piece) := by
  fun_induction Token.scan pos cs with
  | case1 => exact ⟨rfl, trivial⟩
  | case2 pos c cs t ih =>
    have hcov := Token.front_covers pos (c :: cs)
    refine ⟨?_, ?_, ih.2⟩
    · rw [List.map_cons, chars_cons, ← ih.1]
      exact hcov.symm
    · rw [← ih.1, List.append_nil]
      exact lexes_front

theorem exists_lexes_of_mem_scan {pos : Position} {cs : List Char} {t : Token}
    (ht : t ∈ Token.scan pos cs) : ∃ r, t.piece.Lexes r := by
  obtain ⟨before, after, hsplit⟩ := List.append_of_mem ht
  have hcut := (chain_scan pos cs).2
  rw [hsplit, List.map_append, List.map_cons] at hcut
  exact ⟨_, (hcut.of_suffix (List.suffix_append _ _)).head⟩

theorem scan_chars : ∀ {ps : List Piece} (pos : Position), Cut ps →
    (Token.scan pos (chars ps)).map Token.piece = ps
  | [], _, _ => by simp [Token.scan]
  | p :: ps, pos, h => by
    have hp := h.head
    have hf := front_of_lexes hp pos
    obtain ⟨c, cs, ht, -⟩ := hp
    rw [chars_cons] at *
    rw [ht, List.cons_append] at hf ⊢
    rw [scan_cons, hf, List.map_cons, scan_chars _ h.2]
    rfl

/-- The runs that read back are what texts are cut into. -/
theorem scan_pieces_iff {pos : Position} {cs : List Char} {ps : List Piece} :
    (Token.scan pos cs).map Token.piece = ps ↔ cs = chars ps ∧ Cut ps := by
  constructor
  · rintro rfl
    exact chain_scan pos cs
  · rintro ⟨rfl, h⟩
    exact scan_chars pos h

end Piece

end ListQuery.Filter
