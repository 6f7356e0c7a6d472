/-
Runs of the parser, in terms of the pieces that are left. A run that succeeds is taken apart by
`bind_ok` and by what each step does to the pieces; what a step has noted about illegal tokens plays
no part in that.
-/
import ListQuery.Filter.Parse.Grammar
import ListQuery.Proofs.Token.Chain

namespace ListQuery.Filter

/-- The tokens that are left, without their places. -/
def ParseState.pieces (s : ParseState) : List Piece := s.rest.map Token.piece

namespace Piece

/-- The kind in front; behind the last piece the text ends. -/
def headKind : List Piece → Kind
  | [] => .eof
  | p :: _ => p.kind

@[simp] theorem headKind_nil : headKind [] = .eof := rfl
@[simp] theorem headKind_cons (p : Piece) (ps : List Piece) : headKind (p :: ps) = p.kind := rfl

theorem exists_cons_of_headKind {ps : List Piece} {k : Kind} (h : headKind ps = k)
    (hk : k ≠ .eof) : ∃ p qs, ps = p :: qs ∧ p.kind = k := by
  cases ps with
  | nil => exact absurd h.symm hk
  | cons p qs => exact ⟨p, qs, rfl, h⟩

/-- Without the blank in front, if there is one. -/
def unblank : List Piece → List Piece
  | [] => []
  | p :: ps => if p.kind = .whitespace then ps else p :: ps

@[simp] theorem unblank_nil : unblank [] = [] := rfl

theorem unblank_cons_blank {p : Piece} (h : p.kind = .whitespace) (ps : List Piece) :
    unblank (p :: ps) = ps := if_pos h

theorem unblank_cons {p : Piece} (h : p.kind ≠ .whitespace) (ps : List Piece) :
    unblank (p :: ps) = p :: ps := if_neg h

theorem unblank_suffix (ps : List Piece) : unblank ps <:+ ps := by
  cases ps with
  | nil => exact List.suffix_refl _
  | cons p ps =>
    by_cases h : p.kind = .whitespace
    · rw [unblank_cons_blank h]
      exact List.suffix_cons _ _
    · simp only [unblank_cons h, List.suffix_refl]

theorem unblank_eq_self {ps : List Piece} (h : headKind ps ≠ .whitespace) : unblank ps = ps := by
  cases ps with
  | nil => rfl
  | cons p ps => exact unblank_cons h ps

theorem unblank_tail {ps : List Piece} (h : headKind ps = .whitespace) : unblank ps = ps.tail := by
  cases ps with
  | nil => cases h
  | cons p ps => exact unblank_cons_blank h ps

@[simp] theorem unblank_blank (ps : List Piece) : unblank (blank :: ps) = ps :=
  unblank_cons_blank rfl ps

/-- The kind behind the piece in front, a blank between them skipped. -/
def secondKind (ps : List Piece) : Kind := headKind (unblank ps.tail)

end Piece

open Piece

namespace ParseState

variable (s t : ParseState)

@[simp] theorem see_rest (x : Token) : (s.see x).rest = s.rest := rfl

@[simp] theorem see_pieces (x : Token) : (s.see x).pieces = s.pieces := rfl

@[simp] theorem see_head (x : Token) : (s.see x).head = s.head := rfl

@[simp] theorem advance_pieces : s.advance.pieces = s.pieces.tail := by
  simp [pieces, advance, List.map_tail]

@[simp] theorem backTo_pieces : (s.backTo t).pieces = t.pieces := rfl

theorem length_pieces : s.pieces.length = s.rest.length := List.length_map _

theorem head_kind : s.head.kind = headKind s.pieces := by
  unfold head pieces
  cases s.rest <;> rfl

theorem head_piece {p : Piece} {ps : List Piece} (h : s.pieces = p :: ps) : s.head.piece = p := by
  unfold head pieces at *
  cases hr : s.rest with
  | nil => simp [hr] at h
  | cons x xs =>
    rw [hr] at h
    exact (List.cons.inj h).1

theorem following_kind : s.following.kind = secondKind s.pieces := by
  simp only [following, secondKind, head_kind, advance_pieces]
  cases hp : s.pieces.tail with
  | nil => simp [head_kind, hp]
  | cons p ps =>
    by_cases h : p.kind = .whitespace
    · simp [h, unblank, head_kind, hp]
    · simp [h, unblank, head_kind, hp]

/-- A token in front that is not the end is the first piece. -/
theorem pieces_of_head {k : Kind} (h : s.head.kind = k) (hk : k ≠ .eof) :
    s.pieces = s.head.piece :: s.pieces.tail := by
  cases hp : s.pieces with
  | nil =>
    rw [head_kind, hp] at h
    exact absurd h.symm hk
  | cons p ps => rw [head_piece s hp]; rfl

end ParseState

namespace Parser

variable {α β : Type} {s s' : ParseState}

/-! ## Taking runs apart -/

theorem bind_ok {x : Parser α} {f : α → Parser β} {b : β} :
    (x >>= f) s = .ok b s' ↔ ∃ a s₁, x s = .ok a s₁ ∧ f a s₁ = .ok b s' := by
  simp only [bind, EStateM.bind]
  constructor
  · intro h
    split at h
    · rename_i a s₁ hx
      exact ⟨a, s₁, hx, h⟩
    · cases h
  · rintro ⟨a, s₁, hx, hf⟩
    rw [hx]
    exact hf

theorem pure_ok {a b : α} : (pure a : Parser α) s = .ok b s' ↔ a = b ∧ s = s' := by
  simp [pure, EStateM.pure]

theorem get_ok {t : ParseState} : (get : Parser ParseState) s = .ok t s' ↔ s = t ∧ s = s' := by
  change EStateM.Result.ok s s = .ok t s' ↔ _
  rw [EStateM.Result.ok.injEq]

theorem peek_ok {t : Token} (h : peek s = .ok t s') : t = s.head ∧ s' = s.see s.head := by
  simp only [peek, EStateM.Result.ok.injEq] at h
  exact ⟨h.1.symm, h.2.symm⟩

theorem peekKind_ok {k : Kind} (h : peekKind s = .ok k s') :
    k = headKind s.pieces ∧ s' = s.see s.head := by
  simp only [peekKind, EStateM.Result.ok.injEq] at h
  exact ⟨h.1.symm.trans s.head_kind, h.2.symm⟩

theorem next_ok {t : Token} (h : next s = .ok t s') :
    t = s.head ∧ s'.pieces = s.pieces.tail := by
  simp only [next, EStateM.Result.ok.injEq] at h
  exact ⟨h.1.symm, by simp [← h.2]⟩

theorem spanFrom_ok {start : Position} {x : Span} (h : spanFrom start s = .ok x s') : s = s' := by
  simp only [spanFrom, EStateM.Result.ok.injEq] at h
  exact h.2

theorem restore_ok {saved : ParseState} {x : Unit} (h : restore saved s = .ok x s') :
    s'.pieces = saved.pieces := by
  simp only [restore, EStateM.Result.ok.injEq] at h
  simp [← h.2]

theorem unexpected_ok {t : Token} {what : String} {a : α} :
    ¬ (unexpected t what : Parser α) s = .ok a s' := by
  simp only [unexpected, fail]
  split <;> simp

theorem fail_ok {pos : Position} {cause : SyntaxCause} {a : α} :
    ¬ (fail pos cause : Parser α) s = .ok a s' := by
  simp [fail]

theorem eat_ok {kind : Kind} {t : Option Token} (h : eat kind s = .ok t s') :
    (headKind s.pieces = kind ∧ t = some s.head ∧ s'.pieces = s.pieces.tail) ∨
      (headKind s.pieces ≠ kind ∧ t = none ∧ s'.pieces = s.pieces) := by
  simp only [eat, s.head_kind] at h
  split at h
  · rename_i hk
    simp only [EStateM.Result.ok.injEq] at h
    exact .inl ⟨hk, h.1.symm, by simp [← h.2]⟩
  · rename_i hk
    simp only [EStateM.Result.ok.injEq] at h
    exact .inr ⟨hk, h.1.symm, by simp [← h.2]⟩

theorem skipBlank_ok {t : Option Token} (h : skipBlank s = .ok t s') :
    s'.pieces = unblank s.pieces ∧ (t.isSome = true ↔ headKind s.pieces = .whitespace) := by
  rcases eat_ok h with ⟨hk, rfl, hs⟩ | ⟨hk, rfl, hs⟩
  · exact ⟨hs.trans (unblank_tail hk).symm, by simp [hk]⟩
  · exact ⟨hs.trans (unblank_eq_self hk).symm, by simp [hk]⟩

theorem innerBlank_ok {o : ParserOptions} {place : String} {x : Unit}
    (h : innerBlank o place s = .ok x s') : s'.pieces = unblank s.pieces := by
  simp only [innerBlank, bind_ok] at h
  obtain ⟨t, s₁, h₁, h⟩ := h
  have hs := (skipBlank_ok h₁).1
  split at h
  · split at h
    · exact absurd h fail_ok
    · rw [← (pure_ok.1 h).2, hs]
  · rw [← (pure_ok.1 h).2, hs]

/-- A check of blanks that succeeds does nothing. -/
theorem requireSpace_eq {o : ParserOptions} {t : Option Token} {place : String} {x : Unit}
    (h : requireSpace o t place s = .ok x s') : s = s' := by
  unfold requireSpace at h
  split at h
  · split at h
    · split at h
      · exact (pure_ok.1 h).2
      · exact absurd h fail_ok
    · simp only [bind_ok] at h
      obtain ⟨_, _, _, h⟩ := h
      exact absurd h fail_ok
  · exact (pure_ok.1 h).2

theorem requireSpace_ok {o : ParserOptions} {t : Option Token} {place : String} {x : Unit}
    (h : requireSpace o t place s = .ok x s') : s'.pieces = s.pieces := by
  rw [requireSpace_eq h]

theorem expect_ok {kind : Kind} (hk : kind ≠ .eof) {what : String} {t : Token}
    (h : expect kind what s = .ok t s') : s.pieces = t.piece :: s'.pieces ∧ t.kind = kind := by
  simp only [expect, bind_ok] at h
  obtain ⟨t₁, s₁, h₁, h⟩ := h
  obtain ⟨rfl, hs⟩ := next_ok h₁
  split at h
  · rename_i he
    obtain ⟨rfl, rfl⟩ := pure_ok.1 h
    exact ⟨by rw [hs]; exact s.pieces_of_head he hk, he⟩
  · exact absurd h unexpected_ok

theorem leaf_ok {t : Token} {what : String} {l : Leaf} (h : leaf t what s = .ok l s') :
    l.token = t ∧ s = s' := by
  cases hl : Leaf.ofToken? t with
  | none =>
    simp only [leaf, hl] at h
    exact absurd h unexpected_ok
  | some l' =>
    simp only [leaf, hl] at h
    obtain ⟨rfl, rfl⟩ := pure_ok.1 h
    simp only [Leaf.ofToken?, Option.dite_none_right_eq_some, Option.some.injEq] at hl
    obtain ⟨_, rfl⟩ := hl
    exact ⟨rfl, rfl⟩

/-- A leaf that is taken is the piece in front. -/
theorem nextLeaf_ok {s₁ : ParseState} {t : Token} {what : String} {l : Leaf}
    (h₁ : next s = .ok t s₁) (h : leaf t what s₁ = .ok l s') :
    s.pieces = ofLeaf .quoted l :: s'.pieces := by
  obtain ⟨rfl, hs⟩ := next_ok h₁
  obtain ⟨ht, rfl⟩ := leaf_ok h
  have hne : s.head.kind ≠ .eof := by
    intro he
    have := l.leaf
    rw [ht, he] at this
    cases this
  rw [hs, s.pieces_of_head rfl hne, ← ht]
  rfl

theorem keywordIsOperator_ok {b : Bool} (h : keywordIsOperator s = .ok b s') :
    b = !endsName (secondKind s.pieces) ∧ s'.pieces = s.pieces := by
  simp only [keywordIsOperator, EStateM.Result.ok.injEq] at h
  exact ⟨by rw [← h.1, s.following_kind], by simp [← h.2]⟩

theorem tooDeep_ok {o : ParserOptions} {a : α} : ¬ (tooDeep o : Parser α) s = .ok a s' :=
  fail_ok

/-- Values read one behind the other, each from the pieces that the one before has left. -/
inductive Steps (T : List Piece → α → List Piece → Prop) :
    List Piece → List α → List Piece → Prop where
  | nil (ps : List Piece) : Steps T ps [] ps
  | cons {ps ps₁ ps' : List Piece} {a : α} {as : List α} (head : T ps a ps₁)
      (tail : Steps T ps₁ as ps') : Steps T ps (a :: as) ps'

theorem Steps.mono {T T' : List Piece → α → List Piece → Prop}
    (hT : ∀ {ps a ps'}, T ps a ps' → T' ps a ps') {ps ps' : List Piece} {as : List α}
    (h : Steps T ps as ps') : Steps T' ps as ps' := by
  induction h with
  | nil ps => exact .nil ps
  | cons head tail ih => exact .cons (hT head) ih

/-- A repeated step is as many steps as it gives values; that it stops when no token is left plays
no part. -/
theorem many_ok {step : Parser (Option α)} {T : List Piece → α → List Piece → Prop} {as : List α}
    (hnone : ∀ {s s'}, step s = .ok none s' → s'.pieces = s.pieces)
    (hsome : ∀ {s a s'}, step s = .ok (some a) s' → Cut s.pieces →
      T s.pieces a s'.pieces ∧ s'.pieces <:+ s.pieces)
    (h : many step s = .ok as s') (hc : Cut s.pieces) : Steps T s.pieces as s'.pieces := by
  have run : ∀ (fuel : Nat) {s : ParseState} {as : List α}, repeatStep step fuel s = .ok as s' →
      Cut s.pieces → Steps T s.pieces as s'.pieces := by
    intro fuel
    induction fuel with
    | zero =>
      intro s as h _
      obtain ⟨rfl, rfl⟩ := pure_ok.1 h
      exact .nil _
    | succ fuel ih =>
      intro s as h hc
      simp only [repeatStep, bind_ok] at h
      obtain ⟨x, s₁, h₁, h⟩ := h
      cases x with
      | none =>
        obtain ⟨rfl, rfl⟩ := pure_ok.1 h
        rw [hnone h₁]
        exact .nil _
      | some a =>
        simp only [bind_ok, pure_ok] at h
        obtain ⟨as', s₂, h₂, rfl, rfl⟩ := h
        obtain ⟨hT, hs⟩ := hsome h₁ hc
        exact .cons hT (ih h₂ (hc.of_suffix hs))
  exact run _ h hc

/-- Values between commas up to a closing delimiter, which is taken too. -/
inductive Items (T : List Piece → α → List Piece → Prop) (close : Kind) :
    List Piece → List α → List Piece → Prop where
  | last {ps ps₁ ps' : List Piece} {a : α} {p : Piece} (item : T ps a ps₁)
      (stop : unblank ps₁ = p :: ps') (kind : p.kind = close) : Items T close ps [a] ps'
  | cons {ps ps₁ ps₂ ps' : List Piece} {a : α} {as : List α} {p : Piece} (item : T ps a ps₁)
      (stop : unblank ps₁ = p :: ps₂) (kind : p.kind = .comma)
      (tail : Items T close (unblank ps₂) as ps') : Items T close ps (a :: as) ps'

theorem Items.mono {T T' : List Piece → α → List Piece → Prop} {close : Kind}
    (hT : ∀ {ps a ps'}, T ps a ps' → T' ps a ps') {ps ps' : List Piece} {as : List α}
    (h : Items T close ps as ps') : Items T' close ps as ps' := by
  induction h with
  | last item stop kind => exact .last (hT item) stop kind
  | cons item stop kind tail ih => exact .cons (hT item) stop kind ih

section Items

variable {o : ParserOptions} {b : Brackets} {item : Parser α}
  {T : List Piece → α → List Piece → Prop}

/-- An item takes a piece, so the items end before the tokens do. -/
theorem itemsFrom_ok (hb : b.close ≠ .eof)
    (hitem : ∀ {s a s'}, item s = .ok a s' → Cut s.pieces → T s.pieces a s'.pieces ∧
      s'.pieces <:+ s.pieces ∧ s'.pieces.length < s.pieces.length) :
    ∀ (fuel : Nat) {s : ParseState} {as : List α}, s.pieces.length < fuel → Cut s.pieces →
      itemsFrom o b item fuel s = .ok as s' → Items T b.close s.pieces as s'.pieces := by
  intro fuel
  induction fuel with
  | zero => intro s as hf; omega
  | succ fuel ih =>
    intro s as hf hc h
    simp only [itemsFrom, bind_ok] at h
    obtain ⟨a, s₁, h₁, _, s₂, h₂, t, s₃, h₃, h⟩ := h
    obtain ⟨hT, hsuf, hlen⟩ := hitem h₁ hc
    have hs₂ := innerBlank_ok h₂
    obtain ⟨rfl, hs₃⟩ := next_ok h₃
    have hstop : s₂.head.kind ≠ .eof → unblank s₁.pieces = s₂.head.piece :: s₃.pieces := by
      intro hne
      rw [← hs₂, hs₃]
      exact s₂.pieces_of_head rfl hne
    split at h
    · rename_i hk
      simp only [bind_ok, pure_ok] at h
      obtain ⟨_, s₄, h₄, as', s₅, h₅, rfl, rfl⟩ := h
      have hs₄ := innerBlank_ok h₄
      have hstop := hstop (by rw [hk]; simp)
      have hu : s₂.head.piece :: s₃.pieces <:+ s₁.pieces := hstop ▸ unblank_suffix s₁.pieces
      have hs₃ : s₃.pieces <:+ s₁.pieces := (List.suffix_cons _ _).trans hu
      have hless : s₃.pieces.length < s₁.pieces.length := hu.length_le
      refine .cons hT hstop hk ?_
      rw [← hs₄]
      have hs := unblank_suffix s₃.pieces
      refine ih ?_ ?_ h₅
      · rw [hs₄]
        have := hs.length_le
        omega
      · rw [hs₄]
        exact hc.of_suffix ((hs.trans hs₃).trans hsuf)
    · split at h
      · rename_i hk
        obtain ⟨rfl, rfl⟩ := pure_ok.1 h
        exact .last hT (hstop (by rw [hk]; exact hb)) hk
      · exact absurd h unexpected_ok

theorem delimited_ok (hb : b.close ≠ .eof) {as : List α}
    (hitem : ∀ {s a s'}, item s = .ok a s' → Cut s.pieces → T s.pieces a s'.pieces ∧
      s'.pieces <:+ s.pieces ∧ s'.pieces.length < s.pieces.length)
    (h : delimited o b item s = .ok as s') (hc : Cut s.pieces) :
    (as = [] ∧ ∃ p, unblank s.pieces = p :: s'.pieces ∧ p.kind = b.close) ∨
      headKind (unblank s.pieces) ≠ b.close ∧
        Items T b.close (unblank s.pieces) as s'.pieces := by
  simp only [delimited, bind_ok] at h
  obtain ⟨_, s₁, h₁, t, s₂, h₂, h⟩ := h
  have hs₁ := innerBlank_ok h₁
  rcases eat_ok h₂ with ⟨hk, rfl, hs₂⟩ | ⟨hk, rfl, hs₂⟩
  · obtain ⟨rfl, rfl⟩ := pure_ok.1 h
    rw [← s₁.head_kind] at hk
    refine .inl ⟨rfl, s₁.head.piece, ?_, hk⟩
    rw [← hs₁, hs₂]
    exact s₁.pieces_of_head hk hb
  · refine .inr ⟨by rw [← hs₁]; exact hk, ?_⟩
    have hc : Cut s₁.pieces := hs₁ ▸ hc.of_suffix (unblank_suffix _)
    rw [← hs₂] at hc
    rw [← hs₁, ← hs₂]
    exact itemsFrom_ok hb hitem _ (by simp [ParseState.pieces]) hc h

end Items

end Parser

end ListQuery.Filter
