/-
Parentheses around a whole filter. What is read inside of them, with one level of nesting more, is
the tree that is read without them, one byte further to the right. Main statement:
`parse_parentheses`.
-/
import ListQuery.Proofs.Parse.Reading
import ListQuery.Proofs.Parse.Spans
import ListQuery.Proofs.Tree.Known

namespace ListQuery.Filter

open Piece

/-- The move of a text behind one more character of one byte, which starts no line. -/
def Move.right : Move where
  pos p := ⟨p.offset + 1, p.line, if p.line = 1 then p.column + 1 else p.column⟩
  stop n := n + 1

theorem Move.right_keeps : Move.right.Keeps := by
  intro t
  simp only [Token.stop, Token.moved, right]
  omega

namespace Position

theorem advance_right {p : Position} (hp : 0 < p.line) (c : Char) :
    (Move.right.pos p).advance c = Move.right.pos (p.advance c) := by
  unfold advance
  split
  · simp [Move.right, Nat.add_right_comm, Nat.ne_of_gt hp]
  · simp only [Move.right, Position.mk.injEq]
    refine ⟨by omega, trivial, ?_⟩
    split <;> rfl

theorem line_advance {p : Position} (hp : 0 < p.line) (c : Char) : 0 < (p.advance c).line := by
  unfold advance
  split
  · exact Nat.succ_pos _
  · exact hp

theorem line_after {p : Position} (hp : 0 < p.line) (cs : List Char) : 0 < (p.after cs).line := by
  induction cs generalizing p with
  | nil => exact hp
  | cons c cs ih => exact ih (line_advance hp c)

theorem after_right {p : Position} (hp : 0 < p.line) (cs : List Char) :
    (Move.right.pos p).after cs = Move.right.pos (p.after cs) := by
  induction cs generalizing p with
  | nil => rfl
  | cons c cs ih => rw [after_cons, after_cons, advance_right hp, ih (line_advance hp c)]

end Position

namespace Token

/-- Tokens one behind the other, the first one at a position. -/
def placed (pos : Position) : List Piece → List Token
  | [] => []
  | p :: ps => ⟨p.kind, p.text, pos⟩ :: placed (pos.after p.text.toList) ps

/-- The tokens of a text are known from its pieces. -/
theorem scan_eq_placed (pos : Position) (cs : List Char) :
    scan pos cs = placed pos ((scan pos cs).map piece) := by
  fun_induction scan pos cs with
  | case1 => rfl
  | case2 pos c cs t ih =>
    rw [List.map_cons, placed]
    exact congrArg (t :: ·) ih

theorem placed_append (pos : Position) (ps qs : List Piece) :
    placed pos (ps ++ qs) = placed pos ps ++ placed (pos.after (Piece.chars ps)) qs := by
  induction ps generalizing pos with
  | nil => rfl
  | cons p ps ih =>
    rw [List.cons_append, placed, placed, ih, Piece.chars_cons, Position.after_append,
      List.cons_append]

theorem placed_right {pos : Position} (hpos : 0 < pos.line) (ps : List Piece) :
    placed (Move.right.pos pos) ps = (placed pos ps).map (moved .right) := by
  induction ps generalizing pos with
  | nil => rfl
  | cons p ps ih =>
    rw [placed, placed, List.map_cons, Position.after_right hpos, ih (Position.line_after hpos _)]
    rfl

end Token

/-- The tokens of a text in parentheses are those of the text, one byte to the right, and the two
parentheses. -/
theorem solidTokens_parentheses {text : String} (h : Legal (ParseState.ofString text).pieces) :
    solidTokens ("(" ++ text ++ ")") =
      ⟨.leftParen, "(", .start⟩ :: (solidTokens text).map (Token.moved .right) ++
        [⟨.rightParen, ")", Move.right.pos (endOf text)⟩] := by
  have hpieces := pieces_parentheses h
  have hrest (input : String) : (ParseState.ofString input).rest =
      Token.placed .start (ParseState.ofString input).pieces := Token.scan_eq_placed _ _
  have hafter : Position.start.after ("(".toList) = Move.right.pos .start := rfl
  have hkind : (fun t : Token => t.kind.isSolid) ∘ Token.moved .right = fun t => t.kind.isSolid :=
    rfl
  rw [solidTokens_eq, solidTokens_eq, hrest, hrest, hpieces, List.cons_append, Token.placed, hafter,
    Token.placed_append, Token.placed_right (by decide), Position.after_right (by decide),
    ← (pieces_ofString text).1, List.filter_cons_of_pos rfl, List.filter_append, List.filter_map,
    hkind]
  rfl

/-! ## Reading a whole text in parentheses -/

namespace Parser

variable {o : ParserOptions} {inner : Inner} {ps : List Piece}

/-- An expression to the end of the text, read again between parentheses. -/
theorem gets_composite (depth : Nat) {levels : Nat} {e : Expression} {s s' : ParseState}
    (h : expression o levels s = .ok e s') (hs : s.pieces = unblank ps)
    (hend : headKind (unblank s'.pieces) = .eof) (hcut : Cut s'.pieces) :
    Gets (composite (innerAt (o.withDepth depth) levels))
      (⟨.leftParen, "("⟩ :: (ps ++ [⟨.rightParen, ")"⟩]))
      (fun c => c.expression.unplaced = e.unplaced) [] := by
  have hr : Closing [⟨.rightParen, ")"⟩] := .inr rfl
  have hnil : unblank s'.pieces = [] := by
    cases hu : unblank s'.pieces with
    | nil => rfl
    | cons p qs =>
      rw [hu] at hend
      exact absurd hend ((hcut.of_suffix (hu ▸ unblank_suffix _)).head).ne_eof
  have hrun := (innerAt_enclose depth hr (Nat.le_refl levels)).expression s e s' trivial h
  rw [hs, ← unblank_append hr] at hrun
  refine (gets_expect _ rfl).bind fun _ _ => gets_skipBlank_any.bind fun _ _ => ?_
  refine hrun.bind fun e' he' => gets_skipBlank_any.bind fun _ _ => ?_
  rw [unblank_append hr, hnil]
  exact (gets_expect _ rfl).bind fun _ _ => (gets_spanFrom _).bind fun _ _ => .pure he'

/-- A text that starts with a parenthesis and is a group to its end. -/
theorem gets_simple_composite {P : Composite → Prop}
    (h : Gets (composite inner) (⟨.leftParen, "("⟩ :: ps) P []) :
    Gets (simple o inner) (⟨.leftParen, "("⟩ :: ps) (fun x => ∃ c, x = .composite c ∧ P c) [] := by
  refine gets_peekKind.bind fun k hk => ?_
  rw [if_pos (show k = .leftParen from hk)]
  exact h.bind fun c hc => .pure ⟨c, rfl, hc⟩

end Parser

theorem legal_of_parse {o : ParserOptions} {input : String} {e : Expression}
    (h : parse o input = .ok (some e)) : Legal (ParseState.ofString input).pieces := by
  obtain ⟨hsolid, htidy, -⟩ := parse_spells h
  intro p hp
  by_cases hk : p.kind = .whitespace
  · rw [hk]
    rfl
  · have hmem : p ∈ solid (ParseState.ofString input).pieces :=
      List.mem_filter.2 ⟨hp, by simpa using hk⟩
    rw [hsolid] at hmem
    exact legal_of_chain htidy p (List.mem_filter.1 hmem).1

/-- A filter in parentheses is a group of the filter. -/
theorem exists_parse_parentheses {o : ParserOptions} {text : String} {e : Expression}
    (h : parse o text = .ok (some e)) :
    ∃ e' c, parse (o.withDepth (o.maxDepth + 1)) ("(" ++ text ++ ")") = .ok (some e') ∧
      e'.Single (.composite c) ∧ c.expression.unplaced = e.unplaced := by
  have hlegal := legal_of_parse h
  obtain ⟨s', hrun⟩ := parse_ok.1 h
  obtain ⟨s₁, s₂, hs₁, -, he, hend⟩ := Parser.filter_ok hrun
  have hcut : Cut s₁.pieces := hs₁ ▸ (pieces_ofString text).2.of_suffix (unblank_suffix _)
  have hcomposite := Parser.gets_composite (o.maxDepth + 1) he hs₁ hend
    (hcut.of_suffix (Parser.expression_spells he hcut).suffix)
  have hfilter := Parser.gets_filter_single (o := o.withDepth (o.maxDepth + 1)) rfl
    (Parser.gets_simple_composite hcomposite) (by simp) (by simp) (by simp [Parser.isOperator])
    (by simp)
  have hstands : Stands (ParseState.ofString ("(" ++ text ++ ")"))
      (⟨.leftParen, "("⟩ :: ((ParseState.ofString text).pieces ++ [⟨.rightParen, ")"⟩])) :=
    ⟨pieces_parentheses hlegal, by simp [hlegal, Kind.isIllegal], rfl⟩
  obtain ⟨x, t, hx, ⟨e', _, rfl, hsingle, c, rfl, hc⟩, -⟩ := hfilter _ hstands
  exact ⟨e', c, parse_ok.2 ⟨t, hx⟩, hsingle, hc⟩

/-- A group alone; all nodes around it have its span. -/
def Expression.enclosing (span : Span) (e : Expression) : Expression :=
  ⟨span, [⟨span, [⟨span, [⟨span, none, .composite ⟨span, e⟩, none⟩]⟩]⟩]⟩

theorem Span.Covers.unique {a b : Span} {ts : List Token} (ha : a.Covers ts) (hb : b.Covers ts) :
    a = b := by
  obtain ⟨first, last, hfirst, hlast, rfl⟩ := ha
  obtain ⟨first', last', hfirst', hlast', rfl⟩ := hb
  rw [hfirst] at hfirst'
  rw [hlast] at hlast'
  cases hfirst'
  cases hlast'
  rfl

/-- The tree of a group alone: all of its nodes around the group stand on the same tokens. -/
theorem Node.Stands.enclosing {e : Expression} {x : Composite} {ts : List Token}
    (h : (Node.expression e).Stands ts) (he : e.Single (.composite x)) :
    e = .enclosing x.span x.expression ∧ (Node.composite x).Stands ts := by
  obtain ⟨a, b, c, d, rfl⟩ := he
  obtain ⟨span, inner⟩ := x
  have hsequence := h.parts_stand.of_single
  have hfactor := hsequence.parts_stand.of_single
  obtain ⟨us, vs, rfl, hterm, hrest⟩ := hfactor.parts_stand.of_node
  obtain ⟨-, hnil⟩ := hrest.of_unjoined
  cases hnil
  rw [List.append_nil] at h hsequence hfactor ⊢
  have hcomposite : (Node.composite ⟨span, inner⟩).Stands us := hterm.parts_stand.of_single
  obtain rfl : a = span := h.covers.unique hcomposite.covers
  obtain rfl : b = a := hsequence.covers.unique hcomposite.covers
  obtain rfl : c = b := hfactor.covers.unique hcomposite.covers
  obtain rfl : d = c := hterm.covers.unique hcomposite.covers
  exact ⟨rfl, hcomposite⟩

/-- The tree of a filter in parentheses is a group of the tree of the filter, all of whose places
are one byte further to the right. -/
theorem parse_parentheses {o : ParserOptions} {text : String} {e : Expression}
    (h : parse o text = .ok (some e)) :
    parse (o.withDepth (o.maxDepth + 1)) ("(" ++ text ++ ")") =
      .ok (some (.enclosing ⟨.start, text.utf8ByteSize + 2⟩ (e.moved .right))) := by
  obtain ⟨e', ⟨span, inner⟩, he', hsingle, hshape⟩ := exists_parse_parentheses h
  have hstand := (parse_stand he').of_single
  rw [solidTokens_parentheses (legal_of_parse h)] at hstand
  obtain ⟨rfl, hcomposite⟩ := hstand.enclosing hsingle
  -- the parts of the group are the two parentheses and what stands between them
  obtain ⟨_, _, htokens, -, hparts⟩ := hcomposite.parts_stand.of_token
  obtain ⟨-, rfl⟩ := List.cons.inj htokens
  obtain ⟨us, _, htokens, hinner, hparts⟩ := hparts.of_node
  obtain ⟨_, ws, rfl, -, hnil⟩ := hparts.of_token
  cases hnil
  obtain ⟨rfl, -⟩ := List.append_inj' htokens rfl
  obtain rfl := Expression.eq_moved Move.right_keeps (parse_stand h).of_single hinner hshape
  obtain ⟨first, last, hfirst, hlast, rfl⟩ := hcomposite.covers
  rw [List.getLast?_concat] at hlast
  cases hfirst
  cases hlast
  have hstop : (Token.mk .rightParen ")" (Move.right.pos (endOf text))).stop =
      text.utf8ByteSize + 2 := by
    have hoffset : (endOf text).offset = text.utf8ByteSize := by
      rw [endOf, Position.after_offset, String.ofList_toList]
      exact Nat.zero_add _
    show (endOf text).offset + 1 + 1 = _
    rw [hoffset]
  rw [he', hstop]

end ListQuery.Filter
