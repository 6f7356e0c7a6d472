/-
What a production of the grammar has done when it succeeds: one lemma for each, which names the runs
that it is made of, says what was in front, and relates the pieces before and after. What the
grammar looks at without taking it is a function of the pieces: `isOperator`, `opensFactor`,
`comparatorAt`.
-/
import ListQuery.Proofs.Parse.Run

namespace ListQuery.Filter

open Piece

namespace Parser

/-- Whether a keyword stands in front and is an operator. -/
def isOperator (word : Kind) (ps : List Piece) : Bool :=
  headKind ps == word && !endsName (secondKind ps)

/-- Whether a factor starts here. -/
def opensFactor (o : ParserOptions) (ps : List Piece) : Bool :=
  match headKind ps with
  | .andWord | .orWord => endsName (secondKind ps)
  | .minus | .leftParen | .illegal _ => true
  | .leftBracket => o.enableArrays
  | .leftBrace => o.enableStructs
  | kind => kind.isLeaf

/-- The comparator in front. -/
def comparatorAt (o : ParserOptions) (ps : List Piece) : Option Comparator :=
  if headKind ps = .inWord then
    if o.enableIn && isOperator .inWord ps then some .isIn else none
  else Comparator.ofKind? (headKind ps)

variable {o : ParserOptions} {inner : Inner} {s s' : ParseState}

theorem startsFactor_ok {b : Bool} (h : startsFactor o s = .ok b s') :
    b = opensFactor o s.pieces ∧ s'.pieces = s.pieces := by
  simp only [startsFactor, bind_ok] at h
  obtain ⟨k, s₁, h₁, h⟩ := h
  obtain ⟨hk, rfl⟩ := peekKind_ok h₁
  unfold opensFactor
  rw [← hk]
  split at h
  case h_1 | h_2 =>
    simp only [bind_ok, pure_ok] at h
    obtain ⟨b₁, s₂, h₂, rfl, rfl⟩ := h
    obtain ⟨rfl, hs⟩ := keywordIsOperator_ok h₂
    exact ⟨by simp, hs⟩
  all_goals
    obtain ⟨rfl, rfl⟩ := pure_ok.1 h
    simp

theorem comparator?_ok {t : Token} {c : Option Comparator} (ht : t.kind = headKind s.pieces)
    (h : comparator? o t s = .ok c s') :
    c = comparatorAt o s.pieces ∧ s'.pieces = s.pieces := by
  unfold comparatorAt
  unfold comparator? at h
  rw [ht] at h
  split at h
  · rename_i hk
    rw [if_pos hk]
    split at h
    · rename_i ho
      simp only [bind_ok] at h
      obtain ⟨b, s₁, h₁, h⟩ := h
      obtain ⟨rfl, hs⟩ := keywordIsOperator_ok h₁
      simp only [ho, isOperator, hk, beq_self_eq_true, Bool.true_and]
      split at h <;> rename_i hb <;> obtain ⟨rfl, rfl⟩ := pure_ok.1 h <;> simp [hb, hs]
    · rename_i ho
      obtain ⟨rfl, rfl⟩ := pure_ok.1 h
      simp [ho]
  · rename_i hk
    rw [if_neg hk]
    obtain ⟨rfl, rfl⟩ := pure_ok.1 h
    exact ⟨rfl, rfl⟩

/-! ## Comparables -/

theorem composite_ok {c : Composite} (h : composite inner s = .ok c s') :
    ∃ (p p' : Piece) (ps : List Piece) (s₁ s₂ : ParseState),
      s.pieces = p :: ps ∧ p.kind = .leftParen ∧
      s₁.pieces = unblank ps ∧ inner.expression s₁ = .ok c.expression s₂ ∧
      unblank s₂.pieces = p' :: s'.pieces ∧ p'.kind = .rightParen := by
  simp only [composite, bind_ok, pure_ok] at h
  obtain ⟨t, s₁, h₁, _, s₂, h₂, e, s₃, h₃, _, s₄, h₄, t', s₅, h₅, x, s₆, h₆, rfl, rfl⟩ := h
  obtain ⟨hp, hk⟩ := expect_ok (by simp) h₁
  obtain ⟨hp', hk'⟩ := expect_ok (by simp) h₅
  refine ⟨t.piece, t'.piece, s₁.pieces, s₂, s₃, hp, hk, (skipBlank_ok h₂).1, h₃, ?_, hk'⟩
  rw [← (skipBlank_ok h₄).1, hp', spanFrom_ok h₆]

theorem arg_ok {a : Arg} (h : arg inner s = .ok a s') :
    ∃ s₁ : ParseState, s₁.pieces = s.pieces ∧
      ((headKind s.pieces = .leftParen ∧ ∃ c, composite inner s₁ = .ok c s' ∧ a = .composite c) ∨
        headKind s.pieces ≠ .leftParen ∧
          ∃ c, inner.comparable s₁ = .ok c s' ∧ a = .comparable c) := by
  simp only [arg, bind_ok] at h
  obtain ⟨k, s₁, h₁, h⟩ := h
  obtain ⟨rfl, rfl⟩ := peekKind_ok h₁
  refine ⟨s.see s.head, rfl, ?_⟩
  split at h
  · rename_i hk
    simp only [bind_ok, pure_ok] at h
    obtain ⟨c, s₂, h₂, rfl, rfl⟩ := h
    exact .inl ⟨hk, c, h₂, rfl⟩
  · rename_i hk
    simp only [bind_ok, pure_ok] at h
    obtain ⟨c, s₂, h₂, rfl, rfl⟩ := h
    exact .inr ⟨hk, c, h₂, rfl⟩

theorem checkName_ok {path : List Leaf} {what : String} {x : Unit}
    (h : checkName path what s = .ok x s') :
    s = s' ∧ ∀ l ∈ path, l.isIdentifier = true := by
  cases hf : path.find? fun l => !l.isIdentifier with
  | none =>
    simp only [checkName, hf] at h
    refine ⟨(pure_ok.1 h).2, fun l hl => ?_⟩
    simpa using List.find?_eq_none.1 hf l hl
  | some l =>
    simp only [checkName, hf] at h
    exact absurd h fail_ok

theorem dottedLeaf_none (h : dottedLeaf s = .ok none s') : s'.pieces = s.pieces := by
  simp only [dottedLeaf, bind_ok] at h
  obtain ⟨k, s₁, h₁, h⟩ := h
  obtain ⟨rfl, rfl⟩ := peekKind_ok h₁
  split at h
  · simp only [bind_ok, pure_ok, reduceCtorEq, false_and, and_false, exists_false] at h
  · rw [← (pure_ok.1 h).2, s.see_pieces]

theorem dottedLeaf_some {l : Leaf} (h : dottedLeaf s = .ok (some l) s') :
    ∃ p : Piece, p.kind = .dot ∧ s.pieces = p :: ofLeaf .quoted l :: s'.pieces := by
  simp only [dottedLeaf, bind_ok] at h
  obtain ⟨k, s₁, h₁, h⟩ := h
  obtain ⟨rfl, rfl⟩ := peekKind_ok h₁
  split at h
  · rename_i hk
    simp only [bind_ok, pure_ok] at h
    obtain ⟨t, s₂, h₂, t₃, s₃, h₃, l', s₄, h₄, hl, rfl⟩ := h
    cases hl
    obtain ⟨rfl, hs₂⟩ := next_ok h₂
    rw [← s.head_kind] at hk
    refine ⟨s.head.piece, hk, ?_⟩
    rw [← nextLeaf_ok h₃ h₄, hs₂]
    exact s.pieces_of_head hk (by simp)
  · simp [pure_ok] at h

theorem call_ok {name : List Leaf} {start : Position} {c : Call}
    (h : call o inner name start s = .ok c s') :
    ∃ (p : Piece) (s₁ : ParseState), s.pieces = p :: s₁.pieces ∧ p.kind = .leftParen ∧
      c.name = name ∧ delimited o inCall (arg inner) s₁ = .ok c.args s' := by
  simp only [call, bind_ok, pure_ok] at h
  obtain ⟨t, s₁, h₁, args, s₂, h₂, x, s₃, h₃, rfl, rfl⟩ := h
  obtain ⟨hp, hk⟩ := expect_ok (by simp) h₁
  exact ⟨t.piece, s₁, hp, hk, rfl, by rw [h₂, spanFrom_ok h₃]⟩

theorem arrayLiteral_ok {a : ArrayLiteral} (h : arrayLiteral o inner s = .ok a s') :
    ∃ (p : Piece) (s₁ : ParseState), s.pieces = p :: s₁.pieces ∧ p.kind = .leftBracket ∧
      delimited o inArray inner.comparable s₁ = .ok a.elements s' := by
  simp only [arrayLiteral, bind_ok, pure_ok] at h
  obtain ⟨t, s₁, h₁, elements, s₂, h₂, x, s₃, h₃, rfl, rfl⟩ := h
  obtain ⟨hp, hk⟩ := expect_ok (by simp) h₁
  exact ⟨t.piece, s₁, hp, hk, by rw [h₂, spanFrom_ok h₃]⟩

theorem structLiteral_ok {name : List Leaf} {start : Position} {c : StructLiteral}
    (h : structLiteral o inner name start s = .ok c s') :
    ∃ (p : Piece) (s₁ : ParseState), s.pieces = p :: s₁.pieces ∧ p.kind = .leftBrace ∧
      c.name = name ∧ delimited o inStruct (structEntry o inner) s₁ = .ok c.entries s' := by
  simp only [structLiteral, bind_ok, pure_ok] at h
  obtain ⟨t, s₁, h₁, entries, s₂, h₂, x, s₃, h₃, rfl, rfl⟩ := h
  obtain ⟨hp, hk⟩ := expect_ok (by simp) h₁
  exact ⟨t.piece, s₁, hp, hk, rfl, by rw [h₂, spanFrom_ok h₃]⟩

theorem structEntry_ok {e : StructEntry} (h : structEntry o inner s = .ok e s') :
    ∃ (p : Piece) (ps ps' : List Piece) (s₁ : ParseState),
      s.pieces = ofLeaf .quoted e.name :: ps ∧
      unblank ps = p :: ps' ∧ p.kind = .has ∧
      s₁.pieces = unblank ps' ∧ inner.comparable s₁ = .ok e.value s' := by
  simp only [structEntry, bind_ok, pure_ok] at h
  obtain ⟨t, s₁, h₁, l, s₂, h₂, _, s₃, h₃, t', s₄, h₄, _, s₅, h₅, v, s₆, h₆, rfl, rfl⟩ := h
  obtain ⟨hp, hk⟩ := expect_ok (by simp) h₄
  refine ⟨t'.piece, s₂.pieces, s₄.pieces, s₅, nextLeaf_ok h₁ h₂, ?_, hk, innerBlank_ok h₅, h₆⟩
  rw [← innerBlank_ok h₃, hp]

theorem nameRun_ok {c : Comparable} (h : nameRun o inner s = .ok c s') :
    ∃ (value : Leaf) (fields : List Leaf) (s₁ s₂ s₃ : ParseState),
      s.pieces = ofLeaf .quoted value :: s₁.pieces ∧ many dottedLeaf s₁ = .ok fields s₂ ∧
      s₃.pieces = s₂.pieces ∧
      ((headKind s₂.pieces = .leftParen ∧ (∀ l ∈ value :: fields, l.isIdentifier = true) ∧
          ∃ start x, call o inner (value :: fields) start s₃ = .ok x s' ∧ c = .call x) ∨
        (headKind s₂.pieces = .leftBrace ∧ o.enableStructs = true ∧
          (∀ l ∈ value :: fields, l.isIdentifier = true) ∧
          ∃ start x, structLiteral o inner (value :: fields) start s₃ = .ok x s' ∧
            c = .struct x) ∨
        (s'.pieces = s₂.pieces ∧ ∃ span, c = .member ⟨span, value, fields⟩)) := by
  simp only [nameRun, bind_ok] at h
  obtain ⟨t, s₀, h₀, value, s₁, h₁, fields, s₂, h₂, k, s₃, h₃, h⟩ := h
  obtain ⟨hk, rfl⟩ := peekKind_ok h₃
  refine ⟨value, fields, s₁, s₂, s₂.see s₂.head, nextLeaf_ok h₀ h₁, h₂, rfl, ?_⟩
  rw [← hk]
  split at h
  · simp only [bind_ok, pure_ok] at h
    obtain ⟨_, s₄, h₄, x, s₅, h₅, rfl, rfl⟩ := h
    obtain ⟨rfl, hid⟩ := checkName_ok h₄
    exact .inl ⟨rfl, hid, _, x, h₅, rfl⟩
  · split at h
    · rename_i ho
      simp only [bind_ok, pure_ok] at h
      obtain ⟨_, s₄, h₄, x, s₅, h₅, rfl, rfl⟩ := h
      obtain ⟨rfl, hid⟩ := checkName_ok h₄
      exact .inr (.inl ⟨rfl, ho, hid, _, x, h₅, rfl⟩)
    · simp only [bind_ok, pure_ok] at h
      obtain ⟨x, s₄, h₄, rfl, rfl⟩ := h
      exact .inr (.inr ⟨by rw [← spanFrom_ok h₄]; rfl, x, rfl⟩)
  · simp only [bind_ok, pure_ok] at h
    obtain ⟨x, s₄, h₄, rfl, rfl⟩ := h
    exact .inr (.inr ⟨by rw [← spanFrom_ok h₄]; rfl, x, rfl⟩)

theorem comparableBody_ok {c : Comparable} (h : comparableBody o inner s = .ok c s') :
    ∃ s₁ : ParseState, s₁.pieces = s.pieces ∧
      ((headKind s.pieces = .leftBracket ∧ o.enableArrays = true ∧
          ∃ x, arrayLiteral o inner s₁ = .ok x s' ∧ c = .array x) ∨
        (headKind s.pieces = .leftBrace ∧ o.enableStructs = true ∧
          ∃ start x, structLiteral o inner [] start s₁ = .ok x s' ∧ c = .struct x) ∨
        ((headKind s.pieces).isLeaf = true ∧ nameRun o inner s₁ = .ok c s')) := by
  simp only [comparableBody, bind_ok] at h
  obtain ⟨t, s₁, h₁, h⟩ := h
  obtain ⟨rfl, rfl⟩ := peek_ok h₁
  rw [s.head_kind] at h
  refine ⟨s.see s.head, rfl, ?_⟩
  split at h
  · rename_i hk
    simp only [bind_ok, pure_ok] at h
    obtain ⟨x, s₂, h₂, rfl, rfl⟩ := h
    exact .inl ⟨hk.1, hk.2, x, h₂, rfl⟩
  split at h
  · rename_i hk
    simp only [bind_ok, pure_ok] at h
    obtain ⟨x, s₂, h₂, rfl, rfl⟩ := h
    exact .inr (.inl ⟨hk.1, hk.2, _, x, h₂, rfl⟩)
  split at h
  · rename_i hk
    exact .inr (.inr ⟨hk, h⟩)
  · simp only [bind_ok] at h
    obtain ⟨_, _, _, h⟩ := h
    exact absurd h unexpected_ok

/-! ## Expressions -/

theorem restriction_ok {r : Restriction} (h : restriction o inner s = .ok r s') :
    ∃ s₁ s₂ : ParseState, s₁.pieces = s.pieces ∧ inner.comparable s₁ = .ok r.comparable s₂ ∧
      ((comparatorAt o (unblank s₂.pieces) = none ∧ s'.pieces = s₂.pieces ∧ r.comparison = none) ∨
        ∃ (c : Comparison) (s₃ : ParseState),
          comparatorAt o (unblank s₂.pieces) = some c.comparator ∧
          s₃.pieces = unblank (unblank s₂.pieces).tail ∧ arg inner s₃ = .ok c.arg s' ∧
          r.comparison = some c) := by
  simp only [restriction, bind_ok] at h
  obtain ⟨t, s₁, h₁, c, s₂, h₂, saved, s₃, h₃, _, s₄, h₄, t₅, s₅, h₅, x, s₆, h₆, h⟩ := h
  obtain ⟨rfl, rfl⟩ := peek_ok h₁
  obtain ⟨rfl, rfl⟩ := get_ok.1 h₃
  have hs₄ := (skipBlank_ok h₄).1
  obtain ⟨rfl, rfl⟩ := peek_ok h₅
  obtain ⟨hx, hs₆⟩ := comparator?_ok (s := s₄.see s₄.head) s₄.head_kind h₆
  rw [s₄.see_pieces] at hx hs₆
  cases x with
  | none =>
    simp only [bind_ok, pure_ok] at h
    obtain ⟨_, s₇, h₇, y, s₈, h₈, rfl, rfl⟩ := h
    refine ⟨_, s₂, s.see_pieces _, h₂, .inl ⟨by rw [← hs₄, ← hx], ?_, rfl⟩⟩
    rw [← spanFrom_ok h₈, restore_ok h₇]
  | some c' =>
    simp only [bind_ok, pure_ok] at h
    obtain ⟨_, s₇, h₇, _, s₈, h₈, a, s₉, h₉, y, s₁₀, h₁₀, rfl, rfl⟩ := h
    refine ⟨_, s₂, s.see_pieces _, h₂,
      .inr ⟨⟨c', s₄.head.pos, a⟩, s₈, by rw [← hs₄, ← hx], ?_, ?_, rfl⟩⟩
    · rw [(skipBlank_ok h₈).1, (next_ok h₇).2, hs₆, hs₄]
    · rw [← spanFrom_ok h₁₀]
      exact h₉

theorem unary_ok {u : Option UnaryOp} (h : unary o s = .ok u s') :
    (u = some .not ∧ isOperator .notWord s.pieces = true ∧ s'.pieces = unblank s.pieces.tail) ∨
      (u = some .minus ∧ headKind s.pieces = .minus ∧ s'.pieces = unblank s.pieces.tail) ∨
      (u = none ∧ isOperator .notWord s.pieces = false ∧ headKind s.pieces ≠ .minus ∧
        s'.pieces = s.pieces) := by
  simp only [unary, bind_ok] at h
  obtain ⟨k, s₁, h₁, h⟩ := h
  obtain ⟨hk, rfl⟩ := peekKind_ok h₁
  simp only [isOperator, ← hk]
  split at h
  · simp only [bind_ok] at h
    obtain ⟨b, s₂, h₂, h⟩ := h
    obtain ⟨rfl, hs₂⟩ := keywordIsOperator_ok h₂
    simp only [beq_self_eq_true, Bool.true_and]
    split at h
    · rename_i hb
      simp only [bind_ok, pure_ok] at h
      obtain ⟨t, s₃, h₃, x, s₄, h₄, _, s₅, h₅, rfl, rfl⟩ := h
      refine .inl ⟨rfl, hb, ?_⟩
      rw [requireSpace_ok h₅, (skipBlank_ok h₄).1, (next_ok h₃).2, hs₂]
      rfl
    · rename_i hb
      obtain ⟨rfl, rfl⟩ := pure_ok.1 h
      exact .inr (.inr ⟨rfl, by simpa using hb, by simp, hs₂⟩)
  · simp only [bind_ok, pure_ok] at h
    obtain ⟨t, s₂, h₂, _, s₃, h₃, rfl, rfl⟩ := h
    refine .inr (.inl ⟨rfl, rfl, ?_⟩)
    rw [innerBlank_ok h₃, (next_ok h₂).2]
    rfl
  · rename_i hnot hminus
    obtain ⟨rfl, rfl⟩ := pure_ok.1 h
    refine .inr (.inr ⟨rfl, ?_, hminus, rfl⟩)
    simp only [Bool.and_eq_false_imp, beq_iff_eq]
    exact fun hk => absurd hk hnot

theorem simple_ok {x : Simple} (h : simple o inner s = .ok x s') :
    ∃ s₁ : ParseState, s₁.pieces = s.pieces ∧
      ((headKind s.pieces = .leftParen ∧ ∃ c, composite inner s₁ = .ok c s' ∧ x = .composite c) ∨
        headKind s.pieces ≠ .leftParen ∧
          ∃ r, restriction o inner s₁ = .ok r s' ∧ x = .restriction r) := by
  simp only [simple, bind_ok] at h
  obtain ⟨k, s₁, h₁, h⟩ := h
  obtain ⟨rfl, rfl⟩ := peekKind_ok h₁
  refine ⟨s.see s.head, rfl, ?_⟩
  split at h
  · rename_i hk
    simp only [bind_ok, pure_ok] at h
    obtain ⟨c, s₂, h₂, rfl, rfl⟩ := h
    exact .inl ⟨hk, c, h₂, rfl⟩
  · rename_i hk
    simp only [bind_ok, pure_ok] at h
    obtain ⟨r, s₂, h₂, rfl, rfl⟩ := h
    exact .inr ⟨hk, r, h₂, rfl⟩

theorem term_ok {t : Term} (h : term o inner s = .ok t s') :
    ∃ (span : Span) (s₁ s₂ : ParseState), s₁.pieces = s.pieces ∧ unary o s₁ = .ok t.unary s₂ ∧
      simple o inner s₂ = .ok t.simple s' ∧ t = ⟨span, t.unary, t.simple, none⟩ := by
  simp only [term, bind_ok, pure_ok] at h
  obtain ⟨t, s₁, h₁, u, s₂, h₂, x, s₃, h₃, y, s₄, h₄, rfl, rfl⟩ := h
  obtain ⟨rfl, rfl⟩ := peek_ok h₁
  exact ⟨y, _, s₂, s.see_pieces _, h₂, by rw [← spanFrom_ok h₄]; exact h₃, rfl⟩

theorem joiner_ok {word : Kind} {before after : String} {x : Option Position}
    (h : joiner o word before after s = .ok x s') :
    (x.isSome = true ∧ isOperator word (unblank s.pieces) = true ∧
        s'.pieces = unblank (unblank s.pieces).tail) ∨
      (x = none ∧ s'.pieces = s.pieces) := by
  simp only [joiner, bind_ok] at h
  obtain ⟨saved, s₁, h₁, blank, s₂, h₂, k, s₃, h₃, h⟩ := h
  obtain ⟨rfl, rfl⟩ := get_ok.1 h₁
  obtain ⟨rfl, rfl⟩ := peekKind_ok h₃
  have hs₂ := (skipBlank_ok h₂).1
  have back : ∀ {s₃ : ParseState}, (restore s >>= fun _ => pure none : Parser (Option Position)) s₃ =
      .ok x s' → x = none ∧ s'.pieces = s.pieces := by
    intro s₃ h
    simp only [bind_ok, pure_ok] at h
    obtain ⟨_, s₄, h₄, rfl, rfl⟩ := h
    exact ⟨rfl, restore_ok h₄⟩
  split at h
  · rename_i hk
    simp only [bind_ok] at h
    obtain ⟨b, s₄, h₄, h⟩ := h
    obtain ⟨rfl, hs₄⟩ := keywordIsOperator_ok h₄
    split at h
    · rename_i hb
      simp only [bind_ok, pure_ok] at h
      obtain ⟨_, s₅, h₅, t, s₆, h₆, y, s₇, h₇, _, s₈, h₈, rfl, rfl⟩ := h
      rw [s₂.see_pieces] at hb hs₄
      refine .inl ⟨rfl, ?_, ?_⟩
      · rw [← hs₂]
        simpa [isOperator, hk] using hb
      · rw [requireSpace_ok h₈, (skipBlank_ok h₇).1, (next_ok h₆).2, requireSpace_ok h₅, hs₄, hs₂]
    · exact .inr (back h)
  · exact .inr (back h)

theorem orTerm_none (h : orTerm o inner s = .ok none s') : s'.pieces = s.pieces := by
  simp only [orTerm, bind_ok] at h
  obtain ⟨x, s₁, h₁, h⟩ := h
  rcases joiner_ok h₁ with ⟨hx, -, -⟩ | ⟨rfl, hs⟩
  · obtain ⟨pos, rfl⟩ := Option.isSome_iff_exists.1 hx
    simp only [bind_ok, pure_ok, reduceCtorEq, false_and, and_false, exists_false] at h
  · rw [← (pure_ok.1 h).2, hs]

theorem orTerm_some {x : Position × Term} (h : orTerm o inner s = .ok (some x) s') :
    ∃ s₁ : ParseState, isOperator .orWord (unblank s.pieces) = true ∧
      s₁.pieces = unblank (unblank s.pieces).tail ∧ term o inner s₁ = .ok x.2 s' := by
  simp only [orTerm, bind_ok] at h
  obtain ⟨y, s₁, h₁, h⟩ := h
  rcases joiner_ok h₁ with ⟨hy, hop, hs⟩ | ⟨rfl, -⟩
  · obtain ⟨pos, rfl⟩ := Option.isSome_iff_exists.1 hy
    simp only [bind_ok, pure_ok, Option.some.injEq] at h
    obtain ⟨t, s₂, h₂, rfl, rfl⟩ := h
    exact ⟨s₁, hop, hs, h₂⟩
  · simp [pure_ok] at h

theorem andSequence_none (h : andSequence o inner s = .ok none s') : s'.pieces = s.pieces := by
  simp only [andSequence, bind_ok] at h
  obtain ⟨x, s₁, h₁, h⟩ := h
  rcases joiner_ok h₁ with ⟨hx, -, -⟩ | ⟨rfl, hs⟩
  · obtain ⟨pos, rfl⟩ := Option.isSome_iff_exists.1 hx
    simp only [bind_ok, pure_ok, reduceCtorEq, false_and, and_false, exists_false] at h
  · rw [← (pure_ok.1 h).2, hs]

theorem andSequence_some {x : Sequence} (h : andSequence o inner s = .ok (some x) s') :
    ∃ s₁ : ParseState, isOperator .andWord (unblank s.pieces) = true ∧
      s₁.pieces = unblank (unblank s.pieces).tail ∧ sequence o inner s₁ = .ok x s' := by
  simp only [andSequence, bind_ok] at h
  obtain ⟨y, s₁, h₁, h⟩ := h
  rcases joiner_ok h₁ with ⟨hy, hop, hs⟩ | ⟨rfl, -⟩
  · obtain ⟨pos, rfl⟩ := Option.isSome_iff_exists.1 hy
    simp only [bind_ok, pure_ok, Option.some.injEq] at h
    obtain ⟨t, s₂, h₂, rfl, rfl⟩ := h
    exact ⟨s₁, hop, hs, h₂⟩
  · simp [pure_ok] at h

theorem nextFactor_none (h : nextFactor o inner s = .ok none s') : s'.pieces = s.pieces := by
  simp only [nextFactor, bind_ok] at h
  obtain ⟨saved, s₁, h₁, blank, s₂, h₂, h⟩ := h
  obtain ⟨rfl, rfl⟩ := get_ok.1 h₁
  rcases eat_ok h₂ with ⟨hk, rfl, hs₂⟩ | ⟨hk, rfl, hs₂⟩
  · simp only [bind_ok] at h
    obtain ⟨b, s₃, h₃, h⟩ := h
    split at h
    · simp only [bind_ok, pure_ok, reduceCtorEq, false_and, and_false, exists_false] at h
    · simp only [bind_ok, pure_ok] at h
      obtain ⟨_, s₄, h₄, -, rfl⟩ := h
      exact restore_ok h₄
  · rw [← (pure_ok.1 h).2, hs₂]

theorem nextFactor_some {f : Factor} (h : nextFactor o inner s = .ok (some f) s') :
    ∃ s₁ : ParseState, headKind s.pieces = .whitespace ∧
      opensFactor o (unblank s.pieces) = true ∧ s₁.pieces = unblank s.pieces ∧
      factor o inner s₁ = .ok f s' := by
  simp only [nextFactor, bind_ok] at h
  obtain ⟨saved, s₁, h₁, blank, s₂, h₂, h⟩ := h
  obtain ⟨rfl, rfl⟩ := get_ok.1 h₁
  rcases eat_ok h₂ with ⟨hk, rfl, hs₂⟩ | ⟨hk, rfl, hs₂⟩
  · rw [← unblank_tail hk] at hs₂
    simp only [bind_ok] at h
    obtain ⟨b, s₃, h₃, h⟩ := h
    obtain ⟨rfl, hs₃⟩ := startsFactor_ok h₃
    split at h
    · rename_i hb
      simp only [bind_ok, pure_ok, Option.some.injEq] at h
      obtain ⟨_, s₄, h₄, f', s₅, h₅, rfl, rfl⟩ := h
      exact ⟨s₄, hk, hs₂ ▸ hb, by rw [requireSpace_ok h₄, hs₃, hs₂], h₅⟩
    · simp only [bind_ok, pure_ok, reduceCtorEq, false_and, and_false, exists_false] at h
  · simp [pure_ok] at h

theorem factor_ok {f : Factor} (h : factor o inner s = .ok f s') :
    ∃ (first : Term) (others : List (Position × Term)) (s₁ s₂ : ParseState),
      s₁.pieces = s.pieces ∧ term o inner s₁ = .ok first s₂ ∧
      many (orTerm o inner) s₂ = .ok others s' ∧ f.terms = linkTerms first others := by
  simp only [factor, bind_ok, pure_ok] at h
  obtain ⟨t, s₁, h₁, first, s₂, h₂, others, s₃, h₃, x, s₄, h₄, rfl, rfl⟩ := h
  obtain ⟨rfl, rfl⟩ := peek_ok h₁
  exact ⟨first, others, _, s₂, s.see_pieces _, h₂, by rw [← spanFrom_ok h₄]; exact h₃, rfl⟩

theorem sequence_ok {x : Sequence} (h : sequence o inner s = .ok x s') :
    ∃ (first : Factor) (others : List Factor) (s₁ s₂ : ParseState),
      s₁.pieces = s.pieces ∧ factor o inner s₁ = .ok first s₂ ∧
      many (nextFactor o inner) s₂ = .ok others s' ∧ x.factors = first :: others := by
  simp only [sequence, bind_ok, pure_ok] at h
  obtain ⟨t, s₁, h₁, first, s₂, h₂, others, s₃, h₃, x, s₄, h₄, rfl, rfl⟩ := h
  obtain ⟨rfl, rfl⟩ := peek_ok h₁
  exact ⟨first, others, _, s₂, s.see_pieces _, h₂, by rw [← spanFrom_ok h₄]; exact h₃, rfl⟩

theorem expressionBody_ok {e : Expression} (h : expressionBody o inner s = .ok e s') :
    ∃ (first : Sequence) (others : List Sequence) (s₁ s₂ : ParseState),
      s₁.pieces = s.pieces ∧ sequence o inner s₁ = .ok first s₂ ∧
      many (andSequence o inner) s₂ = .ok others s' ∧ e.sequences = first :: others := by
  simp only [expressionBody, bind_ok, pure_ok] at h
  obtain ⟨t, s₁, h₁, first, s₂, h₂, others, s₃, h₃, x, s₄, h₄, rfl, rfl⟩ := h
  obtain ⟨rfl, rfl⟩ := peek_ok h₁
  exact ⟨first, others, _, s₂, s.see_pieces _, h₂, by rw [← spanFrom_ok h₄]; exact h₃, rfl⟩

theorem filter_ok {e : Expression} (h : filter o s = .ok (some e) s') :
    ∃ s₁ s₂ : ParseState, s₁.pieces = unblank s.pieces ∧ headKind s₁.pieces ≠ .eof ∧
      expression o o.maxDepth s₁ = .ok e s₂ ∧ headKind (unblank s₂.pieces) = .eof := by
  simp only [filter, bind_ok] at h
  obtain ⟨_, s₁, h₁, k, s₂, h₂, h⟩ := h
  obtain ⟨rfl, rfl⟩ := peekKind_ok h₂
  have hs₁ := (skipBlank_ok h₁).1
  split at h
  · simp [pure_ok] at h
  rename_i hne
  simp only [bind_ok] at h
  obtain ⟨root, s₃, h₃, _, s₄, h₄, t, s₅, h₅, h⟩ := h
  obtain ⟨rfl, -⟩ := next_ok h₅
  rw [s₄.head_kind, (skipBlank_ok h₄).1] at h
  refine ⟨s₁.see s₁.head, s₃, hs₁, hne, ?_⟩
  split at h
  · rename_i hk
    simp only [bind_ok] at h
    obtain ⟨s₆, s₇, h₇, h⟩ := h
    split at h
    · cases h
    · obtain ⟨he, -⟩ := pure_ok.1 h
      cases he
      exact ⟨h₃, hk⟩
  · exact absurd h unexpected_ok

end Parser

end ListQuery.Filter
