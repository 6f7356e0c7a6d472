/-
Filters that are one comparison, written `f op c` with a dotted name `f` and a comparable `c`, and
the same with the comparable in parentheses. The tree of either is known from the name, the
comparator and the comparable (`parse_comparison`, `parse_enclosed`).
-/
import ListQuery.Proofs.Parse.Enclosed
import ListQuery.Proofs.Token.Enclose

namespace ListQuery.Filter

open Piece

/-- A tree of a single term, without places. -/
def Expression.ofSimple (x : Simple) : Expression :=
  ⟨.nowhere, [⟨.nowhere, [⟨.nowhere, [⟨.nowhere, none, x, none⟩]⟩]⟩]⟩

/-- A single comparison, without places. -/
def Expression.comparing (left : Comparable) (op : Comparator) (right : Arg) : Expression :=
  .ofSimple (.restriction ⟨.nowhere, left, some ⟨op, .start, right⟩⟩)

/-- Parentheses around a single comparable, without places. -/
def Composite.holding (c : Comparable) : Composite :=
  ⟨.nowhere, .ofSimple (.restriction ⟨.nowhere, c, none⟩)⟩

/-- The tree is a single comparison. -/
def Expression.isComparison : Expression → Bool
  | ⟨_, [⟨_, [⟨_, [⟨_, none, .restriction ⟨_, _, some _⟩, none⟩]⟩]⟩]⟩ => true
  | _ => false

theorem Expression.unplaced_of_isComparison {e : Expression} (h : e.isComparison = true) :
    ∃ left op right, e.unplaced = .comparing left op right := by
  unfold isComparison at h
  split at h
  case h_1 _ _ _ _ _ left c =>
    refine ⟨left.unplaced, c.comparator, c.arg.unplaced, ?_⟩
    obtain ⟨op, pos, right⟩ := c
    simp only [Expression.unplaced, unplacedSequences, Sequence.unplaced, unplacedFactors,
      Factor.unplaced, unplacedTerms, Term.unplaced, Simple.unplaced, Restriction.unplaced,
      Comparison.unplaced, Option.map_none, comparing, ofSimple]
  case h_2 => cases h

/-- The text of a comparison. -/
def comparisonText (left : String) (op : Comparator) (right : String) : String :=
  left ++ " " ++ op.text ++ " " ++ right

/-- A dotted name is cut into its leaves and the dots between them. -/
def Member.SpelledBy (m : Member) (text : String) : Prop :=
  (ParseState.ofString text).pieces = ofPath .quoted m.path

instance (m : Member) (text : String) : Decidable (m.SpelledBy text) :=
  inferInstanceAs (Decidable (_ = _))

/-- The grammar takes a text for one comparable, to its end. -/
def SpellsComparable (o : ParserOptions) (text : String) (c : Comparable) : Prop :=
  ∃ levels s, Parser.comparable o levels (.ofString text) = .ok c s ∧ s.rest = []

/-- The pieces of a comparison. -/
def comparisonPieces (m : Member) (op : Comparator) (right : List Piece) : List Piece :=
  ofPath .quoted m.path ++ blank :: ⟨op.kind, op.text⟩ :: blank :: right

theorem Comparator.kind_ne (op : Comparator) : op.kind ≠ .whitespace := by cases op <;> decide

theorem Comparator.kind_injective {c c' : Comparator} (h : c.kind = c'.kind) : c = c' := by
  have hkind := congrArg Comparator.ofKind? h
  rwa [Comparator.ofKind?_kind, Comparator.ofKind?_kind, Option.some.injEq] at hkind

theorem dark_of_headKind {ps : List Piece} (hc : Cut ps) (h : headKind ps ≠ .whitespace) :
    Dark (chars ps) := by
  cases ps with
  | nil => simp [Dark]
  | cons p ps => exact hc.head.dark h _

theorem pieces_comparisonText {m : Member} {left right : String} (hleft : m.SpelledBy left)
    (op : Comparator) (hright : headKind (ParseState.ofString right).pieces ≠ .whitespace) :
    (ParseState.ofString (comparisonText left op right)).pieces =
      comparisonPieces m op (ParseState.ofString right).pieces := by
  obtain ⟨hchars, hcut⟩ := pieces_ofString left
  obtain ⟨hchars', hcut'⟩ := pieces_ofString right
  rw [hleft] at hchars hcut
  have hop := lexes_comparator op (chars (ParseState.ofString right).pieces)
  refine scan_pieces_iff.2 ⟨?_, (chain_append _ _ _).2 ⟨?_, ?_, ?_, ?_, hcut'⟩⟩
  · simp [comparisonText, comparisonPieces, hchars, hchars', blank]
  · exact chain_ofPath (stops_cons (c := ' ') (by simp) _) hcut
  · rw [chars_cons, List.append_assoc]
    exact lexes_blank (hop.dark op.kind_ne _)
  · simpa [blank] using hop
  · simpa using lexes_blank (dark_of_headKind hcut' hright)

theorem pieces_parentheses {text : String} (h : Legal (ParseState.ofString text).pieces) :
    (ParseState.ofString ("(" ++ text ++ ")")).pieces =
      ⟨.leftParen, "("⟩ :: (ParseState.ofString text).pieces ++ [⟨.rightParen, ")"⟩] := by
  obtain ⟨hchars, hcut⟩ := pieces_ofString text
  refine scan_pieces_iff.2 ⟨?_, lexes_leftParen _, hcut.concat_rightParen h⟩
  simp [hchars]

namespace Parser

variable {α : Type} {o : ParserOptions} {s s' : ParseState} {ps : List Piece}

theorem exists_stands (h : Legal ps) : ∃ t, Stands t ps := by
  refine ⟨⟨ps.map fun p => ⟨p.kind, p.text, .start⟩, .start, 0, {}, []⟩, ?_, h, rfl⟩
  simp [ParseState.pieces, Function.comp_def, Token.piece]

/-- Two accounts of a run are about one result. -/
theorem Gets.unique {q : Parser α} {P Q : α → Prop} {rs rs' : List Piece} (hps : Legal ps)
    (h : Gets q ps P rs) (h' : Gets q ps Q rs') : (∃ a, P a ∧ Q a) ∧ rs = rs' := by
  obtain ⟨t, ht⟩ := exists_stands hps
  obtain ⟨a, t₁, hrun, ha, ht₁⟩ := h t ht
  obtain ⟨a', t₂, hrun', ha', ht₂⟩ := h' t ht
  rw [hrun] at hrun'
  cases hrun'
  exact ⟨⟨a, ha, ha'⟩, ht₁.pieces.symm.trans ht₂.pieces⟩

/-- A run that has succeeded succeeds again from the pieces alone. -/
theorem gets_comparable {levels : Nat} {c : Comparable} (h : comparable o levels s = .ok c s')
    {levels' : Nat} (hle : levels ≤ levels') {r : List Piece} (hr : Closing r) :
    Gets (comparable o levels') (s.pieces ++ r) (fun c' => c'.unplaced = c.unplaced)
      (s'.pieces ++ r) :=
  (innerAt_enclose o.maxDepth hr hle).comparable s c s' trivial h

/-- A comparable starts with a leaf or with the delimiter that opens a literal. -/
theorem comparable_front {levels : Nat} {c : Comparable} (h : comparable o levels s = .ok c s') :
    headKind s.pieces = .leftBracket ∨ headKind s.pieces = .leftBrace ∨
      (headKind s.pieces).isLeaf = true := by
  cases levels with
  | zero => exact absurd h tooDeep_ok
  | succ levels =>
    obtain ⟨s₁, -, ⟨h, -⟩ | ⟨h, -⟩ | ⟨h, -⟩⟩ := comparableBody_ok h
    · exact .inl h
    · exact .inr (.inl h)
    · exact .inr (.inr h)

/-- A dotted name is a member where nothing goes on with it. -/
theorem gets_member (m : Member) {levels : Nat} {r : List Piece} (hdot : headKind r ≠ .dot)
    (hparen : headKind r ≠ .leftParen) (hbrace : headKind r ≠ .leftBrace) :
    Gets (comparable o (levels + 1)) (ofPath .quoted m.path ++ r)
      (fun c => c.unplaced = .member m.unplaced) r := by
  show Gets (comparableBody o (innerAt o levels)) _ _ _
  have hleaf : headKind (ofPath .quoted m.path ++ r) = m.value.kind := by
    rw [Member.path, ofPath_cons]
    rfl
  have hkind : m.value.kind.isLeaf = true := m.value.leaf
  unfold comparableBody
  refine gets_peek.bind fun t ht => ?_
  have ht : t.kind = m.value.kind := ht.trans hleaf
  have hbracket : t.kind ≠ .leftBracket := by
    intro h
    rw [← ht, h] at hkind
    cases hkind
  have hopen : t.kind ≠ .leftBrace := by
    intro h
    rw [← ht, h] at hkind
    cases hkind
  rw [if_neg fun h => hbracket h.1, if_neg fun h => hopen h.1, if_pos (ht ▸ hkind)]
  refine gets_name hdot fun t value fields hnames => ?_
  refine gets_peekKind.bind fun k hk => ?_
  split
  · exact absurd hk.symm hparen
  · exact absurd hk.symm hbrace
  · refine (gets_spanFrom _).bind fun _ _ => .pure ?_
    obtain ⟨hvalue, hfields⟩ := List.cons.inj hnames
    simp only [Comparable.unplaced, Member.unplaced, hvalue, hfields]

end Parser

namespace SpellsComparable

variable {o : ParserOptions} {text : String} {c : Comparable} (h : SpellsComparable o text c)

include h

theorem legal : Legal (ParseState.ofString text).pieces := by
  obtain ⟨levels, s, hrun, hrest⟩ := h
  have hspell := (Parser.innerAt_spell o levels).comparable hrun (pieces_ofString text).2
  have hsolid : Legal (solid (ParseState.ofString text).pieces) := by
    rw [hspell.same, show s.pieces = [] by rw [ParseState.pieces, hrest]; rfl]
    intro p hp
    simp only [solid_nil, List.append_nil] at hp
    exact legal_of_chain (hspell.tidy []) p (List.mem_filter.1 hp).1
  intro p hp
  by_cases hk : p.kind = .whitespace
  · rw [hk]
    rfl
  · exact hsolid p (List.mem_filter.2 ⟨hp, by simpa using hk⟩)

theorem front : headKind (ParseState.ofString text).pieces = .leftBracket ∨
    headKind (ParseState.ofString text).pieces = .leftBrace ∨
      (headKind (ParseState.ofString text).pieces).isLeaf = true := by
  obtain ⟨levels, s, hrun, -⟩ := h
  exact Parser.comparable_front hrun

/-- A comparable does not start with a kind that is none of a leaf and opens no literal. -/
theorem headKind_ne {k : Kind} (hk : k ≠ .leftBracket ∧ k ≠ .leftBrace ∧ k.isLeaf = false) :
    headKind (ParseState.ofString text).pieces ≠ k := by
  intro he
  rcases h.front with h | h | h <;> rw [he] at h
  · exact hk.1 h
  · exact hk.2.1 h
  · rw [h] at hk
    exact absurd hk.2.2 (by decide)

/-- Wherever the text stands alone or before a closing parenthesis, it is read as the same
comparable. -/
theorem unique {levels : Nat} {c' : Comparable} {s s' : ParseState} {r : List Piece}
    (hr : Closing r) (hlegal : Legal r)
    (hs : s.pieces = (ParseState.ofString text).pieces ++ r)
    (hrun : Parser.comparable o levels s = .ok c' s') :
    c'.unplaced = c.unplaced ∧ s'.pieces = r := by
  obtain ⟨levels₀, s₀, hrun₀, hrest⟩ := id h
  have hnil : s₀.pieces = [] := by rw [ParseState.pieces, hrest]; rfl
  have hgets := Parser.gets_comparable hrun₀ (Nat.le_max_left levels₀ levels) hr
  have hgets' := Parser.gets_comparable hrun (Nat.le_max_right levels₀ levels) closing_nil
  rw [List.append_nil, List.append_nil, hs] at hgets'
  rw [hnil, List.nil_append] at hgets
  obtain ⟨⟨c'', hc, hc'⟩, hrest'⟩ :=
    Parser.Gets.unique (legal_append.2 ⟨h.legal, hlegal⟩) hgets hgets'
  exact ⟨hc'.symm.trans hc, hrest'.symm⟩

end SpellsComparable

/-! ## Comparisons -/

namespace Parser

variable {o : ParserOptions} {s s' : ParseState}

theorem linkTerms_single {first : Term} {others : List (Position × Term)} {x : Simple}
    (h : (linkTerms first others).map Term.unplaced = [⟨.nowhere, none, x, none⟩]) :
    first.unary = none ∧ first.simple.unplaced = x := by
  cases others with
  | nil =>
    obtain ⟨span, unary, simple, orPos⟩ := first
    simp only [linkTerms, List.map_cons, List.map_nil, Term.unplaced, List.cons.injEq,
      Term.mk.injEq] at h
    exact ⟨h.1.2.1, h.1.2.2.1⟩
  | cons other others =>
    have hlen := congrArg List.length h
    obtain ⟨pos, t⟩ := other
    cases others <;> simp [linkTerms] at hlen

/-- A tree of a single term was read from that term. -/
theorem expression_single {levels : Nat} {e : Expression} {x : Simple}
    (h : expression o levels s = .ok e s') (he : e.unplaced = .ofSimple x) :
    ∃ n y s₁ s₂, levels = n + 1 ∧ s₁.pieces = s.pieces ∧ simple o (innerAt o n) s₁ = .ok y s₂ ∧
      y.unplaced = x := by
  cases levels with
  | zero => exact absurd h tooDeep_ok
  | succ n =>
    obtain ⟨span, sequences⟩ := e
    obtain ⟨first, others, s₁, s₂, hs₁, hsequence, -, rfl⟩ := expressionBody_ok h
    simp only [Expression.unplaced, Expression.ofSimple, unplacedSequences_eq, List.map_cons,
      Expression.mk.injEq, List.cons.injEq] at he
    obtain ⟨span, factors⟩ := first
    obtain ⟨first, others, s₃, s₄, hs₃, hfactor, -, rfl⟩ := sequence_ok hsequence
    simp only [Sequence.unplaced, unplacedFactors_eq, List.map_cons, Sequence.mk.injEq,
      List.cons.injEq] at he
    obtain ⟨span, terms⟩ := first
    obtain ⟨first, others, s₅, s₆, hs₅, hterm, -, rfl⟩ := factor_ok hfactor
    simp only [Factor.unplaced, unplacedTerms_eq, Factor.mk.injEq] at he
    obtain ⟨hunary, hsimple⟩ := linkTerms_single he.2.1.2.1.2
    obtain ⟨span, s₇, s₈, hs₇, hu, hx, -⟩ := term_ok hterm
    rw [hunary] at hu
    rcases unary_ok hu with ⟨h, -⟩ | ⟨h, -⟩ | ⟨-, -, -, hs₈⟩
    · cases h
    · cases h
    · exact ⟨n, first.simple, s₈, s₆, rfl, by rw [hs₈, hs₇, hs₅, hs₃, hs₁], hx, hsimple⟩

theorem legal_comparisonPieces (m : Member) (op : Comparator) {right : List Piece}
    (h : Legal right) : Legal (comparisonPieces m op right) := by
  have hop : op.kind.isIllegal = false := by cases op <;> rfl
  simpa [comparisonPieces, legal_ofPath, hop, blank] using ⟨rfl, h⟩

theorem unblank_comparisonPieces (m : Member) (op : Comparator) (right : List Piece) :
    unblank (comparisonPieces m op right) = comparisonPieces m op right := by
  rw [comparisonPieces, Member.path, ofPath_cons, List.cons_append]
  exact unblank_cons (ofLeaf_kind_ne _ _) _

/-- A restriction that starts with a dotted name and compares it. -/
theorem restriction_comparing {levels : Nat} {m : Member} {op : Comparator} {right : List Piece}
    (hright : Legal right) {x : Restriction} {c : Comparison} (hx : x.comparison = some c)
    (h : restriction o (innerAt o levels) s = .ok x s')
    (hs : s.pieces = comparisonPieces m op right) :
    x.comparable.unplaced = .member m.unplaced ∧ c.comparator = op ∧
      ∃ s₁, s₁.pieces = right ∧ arg (innerAt o levels) s₁ = .ok c.arg s' := by
  obtain ⟨s₁, s₂, hs₁, hcomparable, hrest⟩ := restriction_ok h
  cases levels with
  | zero => exact absurd hcomparable tooDeep_ok
  | succ levels =>
    have hgets := gets_comparable hcomparable (Nat.le_refl _) closing_nil
    rw [List.append_nil, List.append_nil, hs₁, hs] at hgets
    have hmember := @gets_member o m levels (blank :: ⟨op.kind, op.text⟩ :: blank :: right)
      (by simp [blank]) (by simp [blank]) (by simp [blank])
    obtain ⟨⟨c₁, hc₁, hc₁'⟩, hs₂⟩ :=
      Gets.unique (legal_comparisonPieces m op hright) hgets hmember
    refine ⟨hc₁.symm.trans hc₁', ?_⟩
    rw [hs₂, unblank_blank] at hrest
    rcases hrest with ⟨-, -, hnone⟩ | ⟨c', s₃, hop, hs₃, harg, hsome⟩
    · rw [hx] at hnone
      cases hnone
    · rw [hx] at hsome
      cases hsome
      refine ⟨(Comparator.kind_injective (comparatorAt_kind hop)).symm, s₃, ?_, harg⟩
      rw [hs₃, List.tail_cons, unblank_blank]

end Parser

/-- A text that is a single comparison, with what stands on its right. -/
theorem parse_comparing {o : ParserOptions} {m : Member} {left right : String} {op : Comparator}
    (hleft : m.SpelledBy left) (hlegal : Legal (ParseState.ofString right).pieces)
    (hright : headKind (ParseState.ofString right).pieces ≠ .whitespace) {e : Expression}
    (h : parse o (comparisonText left op right) = .ok (some e)) (he : e.isComparison = true) :
    ∃ levels a s s', s.pieces = (ParseState.ofString right).pieces ∧
      Parser.arg (Parser.innerAt o levels) s = .ok a s' ∧
      e.unplaced = .comparing (.member m.unplaced) op a.unplaced := by
  obtain ⟨s₀, hrun⟩ := parse_ok.1 h
  obtain ⟨s₁, s₂, hs₁, -, hexpression, -⟩ := Parser.filter_ok hrun
  rw [pieces_comparisonText hleft op hright, Parser.unblank_comparisonPieces] at hs₁
  obtain ⟨l, op', a', he⟩ := Expression.unplaced_of_isComparison he
  obtain ⟨levels, y, s₃, s₄, -, hs₃, hsimple, hy⟩ := Parser.expression_single hexpression he
  obtain ⟨s₅, hs₅, ⟨-, c, -, rfl⟩ | ⟨-, ⟨span, comparable, comparison⟩, hrestriction, rfl⟩⟩ :=
    Parser.simple_ok hsimple
  · simp [Simple.unplaced] at hy
  cases comparison with
  | none => simp [Simple.unplaced, Restriction.unplaced] at hy
  | some c =>
    obtain ⟨hcomparable, hop, s₆, hs₆, harg⟩ := Parser.restriction_comparing hlegal rfl
      hrestriction (by rw [hs₅, hs₃, hs₁])
    refine ⟨levels, c.arg, s₆, s₄, hs₆, harg, ?_⟩
    obtain ⟨comparator, pos, arg⟩ := c
    simp only [Simple.unplaced, Restriction.unplaced, Comparison.unplaced, Simple.restriction.injEq,
      Restriction.mk.injEq, Option.some.injEq, Comparison.mk.injEq] at hy
    rw [he, ← hcomparable, ← hop, hy.2.1, hy.2.2.1, hy.2.2.2.2]

/-- The tree of a comparison with a comparable. -/
theorem parse_comparison {o : ParserOptions} {m : Member} {left right : String} {op : Comparator}
    {c : Comparable} (hleft : m.SpelledBy left) (hright : SpellsComparable o right c)
    {e : Expression} (h : parse o (comparisonText left op right) = .ok (some e))
    (he : e.isComparison = true) :
    e.unplaced = .comparing (.member m.unplaced) op (.comparable c.unplaced) := by
  obtain ⟨levels, a, s, s', hs, harg, he⟩ :=
    parse_comparing hleft hright.legal (hright.headKind_ne (by decide)) h he
  obtain ⟨s₁, hs₁, ⟨hk, -⟩ | ⟨-, c', hrun, rfl⟩⟩ := Parser.arg_ok harg
  · rw [hs] at hk
    exact absurd hk (hright.headKind_ne (by decide))
  · have hc := hright.unique closing_nil legal_nil (by rw [hs₁, hs, List.append_nil]) hrun
    rw [he, Arg.unplaced, hc.1]

/-! ## Comparables in parentheses -/

namespace Parser

variable {α : Type} {o : ParserOptions} {s s' : ParseState}

/-- A step that gives nothing is not repeated. -/
theorem many_stops {step : Parser (Option α)} {as : List α}
    (hnone : ∀ {s'}, step s = .ok none s' → s'.pieces = s.pieces)
    (hsome : ∀ {a s'}, ¬ step s = .ok (some a) s') (h : many step s = .ok as s') :
    as = [] ∧ s'.pieces = s.pieces := by
  obtain ⟨x, s₁, h₁, h₂⟩ := bind_ok.1 h
  cases x with
  | none =>
    obtain ⟨rfl, rfl⟩ := pure_ok.1 h₂
    exact ⟨rfl, hnone h₁⟩
  | some a => exact absurd h₁ hsome

/-- No operator stands before a closing parenthesis. -/
theorem isOperator_rightParen {word : Kind} (hword : word ≠ .rightParen)
    (hs : s.pieces = [⟨.rightParen, ")"⟩]) : isOperator word (unblank s.pieces) = false := by
  rw [hs, unblank_cons (by decide), isOperator, headKind_cons]
  simp [hword.symm]

section Holding

/-! The text of a comparable stands before a closing parenthesis: each production takes it whole and
stops at the parenthesis. -/

variable {text : String} {c : Comparable} (hc : SpellsComparable o text c)
  (hnot : headKind (ParseState.ofString text).pieces ≠ .notWord) {levels : Nat}
  (hs : s.pieces = (ParseState.ofString text).pieces ++ [⟨.rightParen, ")"⟩])

include hc hs

theorem headKind_holding :
    headKind s.pieces = headKind (ParseState.ofString text).pieces := by
  rw [hs]
  refine headKind_append (fun hnil => ?_) _
  exact hc.headKind_ne (k := .eof) (by decide) (by rw [hnil]; rfl)

theorem restriction_holding {x : Restriction}
    (h : restriction o (innerAt o levels) s = .ok x s') :
    x.unplaced = ⟨.nowhere, c.unplaced, none⟩ ∧ s'.pieces = [⟨.rightParen, ")"⟩] := by
  obtain ⟨s₁, s₂, hs₁, hcomparable, hrest⟩ := restriction_ok h
  have hlegal : Legal [⟨.rightParen, ")"⟩] := by simp [Kind.isIllegal]
  obtain ⟨hunplaced, hs₂⟩ := hc.unique (.inr rfl) hlegal (by rw [hs₁, hs]) hcomparable
  rw [hs₂] at hrest
  obtain ⟨span, comparable, comparison⟩ := x
  rcases hrest with ⟨-, hs', hnone⟩ | ⟨c', -, hop, -⟩
  · obtain rfl : comparison = none := hnone
    have hunplaced : comparable.unplaced = c.unplaced := hunplaced
    exact ⟨by rw [Restriction.unplaced, hunplaced], hs'⟩
  · cases hop

include hnot

theorem term_holding {t : Term} (h : term o (innerAt o levels) s = .ok t s') :
    t.unplaced = ⟨.nowhere, none, .restriction ⟨.nowhere, c.unplaced, none⟩, none⟩ ∧
      s'.pieces = [⟨.rightParen, ")"⟩] := by
  have hfront := headKind_holding hc hs
  obtain ⟨span, s₁, s₂, hs₁, hunary, hsimple, ht⟩ := term_ok h
  have hs₂ : t.unary = none ∧ s₂.pieces = s.pieces := by
    rcases unary_ok hunary with ⟨-, hop, -⟩ | ⟨-, hk, -⟩ | ⟨hnone, -, -, hs₂⟩
    · rw [hs₁, isOperator, hfront] at hop
      simp [hnot] at hop
    · rw [hs₁, hfront] at hk
      exact absurd hk (hc.headKind_ne (by decide))
    · exact ⟨hnone, hs₂.trans hs₁⟩
  obtain ⟨s₃, hs₃, ⟨hk, -⟩ | ⟨-, x, hrestriction, hx⟩⟩ := simple_ok hsimple
  · rw [hs₂.2, hfront] at hk
    exact absurd hk (hc.headKind_ne (by decide))
  · obtain ⟨hunplaced, hs'⟩ := restriction_holding hc (by rw [hs₃, hs₂.2, hs]) hrestriction
    rw [hs₂.1, hx] at ht
    rw [ht]
    exact ⟨by rw [Term.unplaced, Simple.unplaced, hunplaced]; rfl, hs'⟩

theorem factor_holding {f : Factor} (h : factor o (innerAt o levels) s = .ok f s') :
    f.unplaced = ⟨.nowhere, [⟨.nowhere, none, .restriction ⟨.nowhere, c.unplaced, none⟩, none⟩]⟩ ∧
      s'.pieces = [⟨.rightParen, ")"⟩] := by
  obtain ⟨first, others, s₁, s₂, hs₁, hterm, hothers, hterms⟩ := factor_ok h
  obtain ⟨hfirst, hs₂⟩ := term_holding hc hnot (by rw [hs₁, hs]) hterm
  obtain ⟨rfl, hs'⟩ := many_stops orTerm_none (fun h => by
    obtain ⟨_, hop, -⟩ := orTerm_some h
    rw [isOperator_rightParen (by decide) hs₂] at hop
    cases hop) hothers
  obtain ⟨span, terms⟩ := f
  subst hterms
  refine ⟨?_, hs'.trans hs₂⟩
  simp only [Factor.unplaced, linkTerms, unplacedTerms_eq, List.map_cons, List.map_nil, hfirst]

theorem sequence_holding {x : Sequence} (h : sequence o (innerAt o levels) s = .ok x s') :
    x.unplaced = ⟨.nowhere, [⟨.nowhere,
        [⟨.nowhere, none, .restriction ⟨.nowhere, c.unplaced, none⟩, none⟩]⟩]⟩ ∧
      s'.pieces = [⟨.rightParen, ")"⟩] := by
  obtain ⟨first, others, s₁, s₂, hs₁, hfactor, hothers, hfactors⟩ := sequence_ok h
  obtain ⟨hfirst, hs₂⟩ := factor_holding hc hnot (by rw [hs₁, hs]) hfactor
  obtain ⟨rfl, hs'⟩ := many_stops nextFactor_none (fun h => by
    obtain ⟨_, hk, -⟩ := nextFactor_some h
    rw [hs₂] at hk
    cases hk) hothers
  obtain ⟨span, factors⟩ := x
  subst hfactors
  refine ⟨?_, hs'.trans hs₂⟩
  simp only [Sequence.unplaced, unplacedFactors_eq, List.map_cons, List.map_nil, hfirst]

theorem expression_holding {e : Expression} (h : expression o levels s = .ok e s') :
    e.unplaced = .ofSimple (.restriction ⟨.nowhere, c.unplaced, none⟩) := by
  cases levels with
  | zero => exact absurd h tooDeep_ok
  | succ levels =>
    obtain ⟨first, others, s₁, s₂, hs₁, hsequence, hothers, hsequences⟩ := expressionBody_ok h
    obtain ⟨hfirst, hs₂⟩ := sequence_holding hc hnot (by rw [hs₁, hs]) hsequence
    obtain ⟨rfl, -⟩ := many_stops andSequence_none (fun h => by
      obtain ⟨_, hop, -⟩ := andSequence_some h
      rw [isOperator_rightParen (by decide) hs₂] at hop
      cases hop) hothers
    obtain ⟨span, sequences⟩ := e
    subst hsequences
    simp only [Expression.unplaced, Expression.ofSimple, unplacedSequences_eq, List.map_cons,
      List.map_nil, hfirst]

end Holding

end Parser

/-- The tree of a comparison with a comparable in parentheses, unless a `NOT` in front of the
comparable is taken for the operator there. -/
theorem parse_enclosed {o : ParserOptions} {m : Member} {left right : String} {op : Comparator}
    {c : Comparable} (hleft : m.SpelledBy left) (hright : SpellsComparable o right c)
    (hnot : headKind (ParseState.ofString right).pieces ≠ .notWord) {e : Expression}
    (h : parse o (comparisonText left op ("(" ++ right ++ ")")) = .ok (some e))
    (he : e.isComparison = true) :
    e.unplaced = .comparing (.member m.unplaced) op (.composite (.holding c.unplaced)) := by
  have hpieces := pieces_parentheses hright.legal
  have hlegal : Legal (ParseState.ofString ("(" ++ right ++ ")")).pieces := by
    rw [hpieces]
    simp [hright.legal, Kind.isIllegal]
  obtain ⟨levels, a, s, s', hs, harg, he⟩ :=
    parse_comparing hleft hlegal (by rw [hpieces]; simp) h he
  rw [hpieces] at hs
  obtain ⟨s₁, hs₁, ⟨-, x, hx, rfl⟩ | ⟨hk, -⟩⟩ := Parser.arg_ok harg
  · obtain ⟨p, p', ps, s₂, s₃, hps, -, hs₂, hexpression, -⟩ := Parser.composite_ok hx
    rw [hs₁, hs, List.cons_append] at hps
    rw [← (List.cons.inj hps).2, unblank_append (.inr rfl),
      unblank_eq_self (hright.headKind_ne (by decide))] at hs₂
    obtain ⟨span, e'⟩ := x
    rw [he, Arg.unplaced, Composite.unplaced, Composite.holding,
      Parser.expression_holding hright hnot hs₂ hexpression]
  · rw [hs] at hk
    exact absurd rfl hk

end ListQuery.Filter
