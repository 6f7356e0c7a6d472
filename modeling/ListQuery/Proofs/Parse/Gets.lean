/-
Runs that must succeed. `Gets q ps P rs` says that the parser `q`, standing before the legal pieces
`ps`, gives a value with the property `P` and then stands before `rs`. Such runs are put together by
`Gets.bind`; there is one lemma for each step of the parser and one for each kind of repetition.
-/
import ListQuery.Proofs.Parse.Spell

namespace ListQuery.Filter

open Piece

/-- The parser stands before `ps`, all of which is legal, and has met nothing illegal. -/
structure Stands (t : ParseState) (ps : List Piece) : Prop where
  pieces : t.pieces = ps
  legal : Legal ps
  clean : t.log.count = 0

namespace Stands

variable {t : ParseState} {ps : List Piece}

theorem length_rest (h : Stands t ps) : t.rest.length = ps.length := by
  rw [← h.pieces, t.length_pieces]

theorem headKind_legal (h : Stands t ps) : (headKind ps).isIllegal = false := by
  cases ps with
  | nil => rfl
  | cons p ps => exact h.legal p (by simp)

theorem secondKind_legal (h : Stands t ps) : (secondKind ps).isIllegal = false := by
  unfold secondKind
  cases hu : unblank ps.tail with
  | nil => rfl
  | cons p qs =>
    have hsuf : p :: qs <:+ ps := hu ▸ (unblank_suffix _).trans (List.tail_suffix ps)
    exact h.legal p (hsuf.subset (by simp))

/-- Seeing a legal token changes nothing. -/
theorem see (h : Stands t ps) {x : Token} (hx : x.kind.isIllegal = false) : Stands (t.see x) ps := by
  refine ⟨h.pieces, h.legal, ?_⟩
  have : (t.log.see x).1 = t.log := by
    unfold FaultLog.see
    split
    · rename_i hk
      rw [hk] at hx
      cases hx
    · rfl
  show (t.log.see x).1.count = 0
  rw [this]
  exact h.clean

theorem see_head (h : Stands t ps) : Stands (t.see t.head) ps := by
  refine h.see ?_
  rw [t.head_kind, h.pieces]
  exact h.headKind_legal

theorem advance (h : Stands t ps) : Stands t.advance ps.tail :=
  ⟨by rw [t.advance_pieces, h.pieces], fun p hp => h.legal p (List.mem_of_mem_tail hp), h.clean⟩

end Stands

namespace Parser

variable {α β γ : Type} {ps qs rs : List Piece} {o : ParserOptions}

/-- The parser gives a value with a property and goes on from `ps` to `rs`. -/
def Gets (q : Parser α) (ps : List Piece) (P : α → Prop) (rs : List Piece) : Prop :=
  ∀ t, Stands t ps → ∃ a t', q t = .ok a t' ∧ P a ∧ Stands t' rs

namespace Gets

variable {P : α → Prop} {Q : β → Prop}

theorem bind {x : Parser α} {f : α → Parser β} (hx : Gets x ps P qs)
    (hf : ∀ a, P a → Gets (f a) qs Q rs) : Gets (x >>= f) ps Q rs := by
  intro t ht
  obtain ⟨a, t₁, hrun, ha, ht₁⟩ := hx t ht
  obtain ⟨b, t₂, hrun₂, hb, ht₂⟩ := hf a ha t₁ ht₁
  exact ⟨b, t₂, bind_ok.2 ⟨a, t₁, hrun, hrun₂⟩, hb, ht₂⟩

theorem pure {a : α} (ha : P a) : Gets (Pure.pure a : Parser α) ps P ps :=
  fun t ht => ⟨a, t, rfl, ha, ht⟩

theorem mono {x : Parser α} {P' : α → Prop} (hx : Gets x ps P qs) (h : ∀ a, P a → P' a) :
    Gets x ps P' qs := by
  intro t ht
  obtain ⟨a, t', hrun, ha, ht'⟩ := hx t ht
  exact ⟨a, t', hrun, h a ha, ht'⟩

end Gets

/-! ## Steps -/

theorem gets_peek : Gets peek ps (fun t => t.kind = headKind ps) ps :=
  fun t ht => ⟨_, _, rfl, t.head_kind.trans (congrArg headKind ht.pieces), ht.see_head⟩

theorem gets_peekKind : Gets peekKind ps (· = headKind ps) ps :=
  fun t ht => ⟨_, _, rfl, t.head_kind.trans (congrArg headKind ht.pieces), ht.see_head⟩

theorem gets_next (p : Piece) : Gets next (p :: ps) (fun t => t.piece = p) ps :=
  fun t ht => ⟨_, _, rfl, t.head_piece ht.pieces, ht.see_head.advance⟩

theorem gets_spanFrom (start : Position) : Gets (spanFrom start) ps (fun _ => True) ps :=
  fun t ht => ⟨_, t, rfl, trivial, ht⟩

theorem gets_get : Gets get ps (fun saved => Stands saved ps) ps :=
  fun t ht => ⟨t, t, rfl, ht, ht⟩

theorem gets_restore {saved : ParseState} (h : Stands saved ps) :
    Gets (restore saved) qs (fun _ => True) ps :=
  fun t ht => ⟨(), t.backTo saved, rfl, trivial, h.pieces, h.legal, ht.clean⟩

theorem gets_skipBlank_none (h : headKind ps ≠ .whitespace) :
    Gets skipBlank ps (· = none) ps := by
  intro t ht
  refine ⟨none, t.see t.head, ?_, rfl, ht.see_head⟩
  rw [← ht.pieces, ← t.head_kind] at h
  simp only [skipBlank, eat, h, ↓reduceIte]

theorem gets_skipBlank (p : Piece) (h : p.kind = .whitespace) :
    Gets skipBlank (p :: ps) (fun x => ∃ t, x = some t ∧ t.piece = p) ps := by
  intro t ht
  refine ⟨some t.head, _, ?_, ⟨t.head, rfl, t.head_piece ht.pieces⟩, ht.see_head.advance⟩
  have hk : t.head.kind = .whitespace := by
    rw [t.head_kind, ht.pieces]
    exact h
  simp only [skipBlank, eat, hk, ↓reduceIte]

theorem gets_skipBlank_any : Gets skipBlank ps (fun _ => True) (unblank ps) := by
  by_cases h : headKind ps = .whitespace
  · obtain ⟨p, qs, rfl, hp⟩ := exists_cons_of_headKind h (by simp)
    rw [unblank_cons_blank hp]
    exact (gets_skipBlank p hp).mono fun _ _ => trivial
  · rw [unblank_eq_self h]
    exact (gets_skipBlank_none h).mono fun _ _ => trivial

theorem gets_eat {kind : Kind} (p : Piece) (h : p.kind = kind) :
    Gets (eat kind) (p :: ps) (fun x => x.isSome = true) ps := by
  intro t ht
  refine ⟨some t.head, _, ?_, rfl, ht.see_head.advance⟩
  have hk : t.head.kind = kind := by
    rw [t.head_kind, ht.pieces]
    exact h
  simp only [eat, hk, ↓reduceIte]

theorem gets_eat_none {kind : Kind} (h : headKind ps ≠ kind) : Gets (eat kind) ps (· = none) ps := by
  intro t ht
  refine ⟨none, t.see t.head, ?_, rfl, ht.see_head⟩
  rw [← ht.pieces, ← t.head_kind] at h
  simp only [eat, h, ↓reduceIte]

theorem gets_innerBlank (h : headKind ps ≠ .whitespace) (place : String) :
    Gets (innerBlank o place) ps (fun _ => True) ps := by
  unfold innerBlank
  refine (gets_skipBlank_none h).bind fun x hx => ?_
  subst hx
  exact .pure trivial

theorem gets_requireSpace {t : Token} (h : t.piece = blank) (place : String) :
    Gets (requireSpace o (some t) place) ps (fun _ => True) ps := by
  unfold requireSpace
  have ht : t.text.length = 1 := by
    rw [show t.text = " " from congrArg Piece.text h]
    rfl
  simp only [ht, ↓reduceIte]
  split <;> exact .pure trivial

theorem gets_expect {kind : Kind} {what : String} (p : Piece) (h : p.kind = kind) :
    Gets (expect kind what) (p :: ps) (fun t => t.piece = p) ps := by
  unfold expect
  refine (gets_next p).bind fun t ht => ?_
  have hk : t.kind = kind := (congrArg Piece.kind ht).trans h
  rw [if_pos hk]
  exact .pure ht

theorem gets_leaf {t : Token} {l : Leaf} (h : t.piece = ofLeaf .quoted l) (what : String) :
    Gets (leaf t what) ps (fun x => x.unplaced = l.unplaced) ps := by
  have hk : t.kind = l.token.kind := congrArg Piece.kind h
  have ht : t.text = l.token.text := congrArg Piece.text h
  have hleaf : t.kind.isLeaf = true := hk ▸ l.leaf
  unfold leaf
  simp only [Leaf.ofToken?, hleaf, ↓reduceDIte]
  refine .pure ?_
  simp only [Leaf.unplaced, hk, ht]

theorem gets_keywordIsOperator : Gets keywordIsOperator ps (· = !endsName (secondKind ps)) ps := by
  intro t ht
  have hk : t.following.kind = secondKind ps := by rw [t.following_kind, ht.pieces]
  refine ⟨_, _, rfl, by rw [hk], ht.see ?_⟩
  rw [hk]
  exact ht.secondKind_legal

theorem gets_startsFactor : Gets (startsFactor o) ps (· = opensFactor o ps) ps := by
  unfold startsFactor opensFactor
  refine gets_peekKind.bind fun k hk => ?_
  rw [← hk]
  split
  case h_1 | h_2 =>
    refine gets_keywordIsOperator.bind fun b hb => .pure ?_
    rw [hb, Bool.not_not]
  all_goals exact .pure (by simp)

theorem gets_comparator? {t : Token} (ht : t.kind = headKind ps) :
    Gets (comparator? o t) ps (· = comparatorAt o ps) ps := by
  unfold comparator? comparatorAt
  rw [ht]
  split
  · rename_i hk
    split
    · rename_i ho
      refine gets_keywordIsOperator.bind fun b hb => ?_
      simp only [ho, isOperator, hk, beq_self_eq_true, Bool.true_and, ← hb]
      split <;> exact .pure rfl
    · rename_i ho
      simp only [ho, Bool.false_and, Bool.false_eq_true, ↓reduceIte]
      exact .pure rfl
  · exact .pure rfl

theorem gets_joiner_none {word : Kind} {before after : String}
    (h : isOperator word (unblank ps) = false) :
    Gets (joiner o word before after) ps (· = none) ps := by
  unfold joiner
  refine gets_get.bind fun saved hsaved => ?_
  have back : ∀ {rs : List Piece}, Gets (restore saved >>= fun _ => Pure.pure none) rs
      ((· = none) : Option Position → Prop) ps :=
    (gets_restore hsaved).bind fun _ _ => .pure rfl
  refine gets_skipBlank_any.bind fun x _ => ?_
  refine gets_peekKind.bind fun k hk => ?_
  split
  · rename_i hw
    refine gets_keywordIsOperator.bind fun b hb => ?_
    have : b = false := by
      rw [hb]
      simpa [isOperator, ← hk, hw] using h
    rw [if_neg (by simp [this])]
    exact back
  · exact back

theorem gets_joiner_some {word : Kind} {before after : String} {p : Piece}
    (h : isOperator word (p :: blank :: ps) = true) :
    Gets (joiner o word before after) (blank :: p :: blank :: ps) (fun x => x.isSome = true) ps := by
  simp only [isOperator, headKind_cons, Bool.and_eq_true, beq_iff_eq] at h
  obtain ⟨hk, hop⟩ := h
  unfold joiner
  refine gets_get.bind fun saved _ => ?_
  refine (gets_skipBlank blank rfl).bind fun x hx => ?_
  obtain ⟨t, rfl, ht⟩ := hx
  refine gets_peekKind.bind fun k hk' => ?_
  rw [if_pos (hk'.trans hk)]
  refine gets_keywordIsOperator.bind fun b hb => ?_
  rw [if_pos (hb.trans hop)]
  refine (gets_requireSpace ht _).bind fun _ _ => ?_
  refine (gets_next p).bind fun t' _ => ?_
  refine (gets_skipBlank blank rfl).bind fun y hy => ?_
  obtain ⟨t₂, rfl, ht₂⟩ := hy
  exact (gets_requireSpace ht₂ _).bind fun _ _ => .pure rfl

theorem gets_unary_not {p : Piece} (h : isOperator .notWord (p :: blank :: ps) = true) :
    Gets (unary o) (p :: blank :: ps) (· = some .not) ps := by
  simp only [isOperator, headKind_cons, Bool.and_eq_true, beq_iff_eq] at h
  unfold unary
  refine gets_peekKind.bind fun k hk => ?_
  obtain rfl : k = .notWord := hk.trans h.1
  refine gets_keywordIsOperator.bind fun b hb => ?_
  rw [if_pos (hb.trans h.2)]
  refine (gets_next p).bind fun _ _ => ?_
  refine (gets_skipBlank blank rfl).bind fun x hx => ?_
  obtain ⟨t, rfl, ht⟩ := hx
  exact (gets_requireSpace ht _).bind fun _ _ => .pure rfl

theorem gets_unary_minus {p : Piece} (hp : p.kind = .minus) (h : headKind ps ≠ .whitespace) :
    Gets (unary o) (p :: ps) (· = some .minus) ps := by
  unfold unary
  refine gets_peekKind.bind fun k hk => ?_
  obtain rfl : k = .minus := hk.trans hp
  refine (gets_next p).bind fun _ _ => ?_
  exact (gets_innerBlank h _).bind fun _ _ => .pure rfl

theorem gets_unary_none (hnot : isOperator .notWord ps = false) (hminus : headKind ps ≠ .minus) :
    Gets (unary o) ps (· = none) ps := by
  unfold unary
  refine gets_peekKind.bind fun k hk => ?_
  split
  · refine gets_keywordIsOperator.bind fun b hb => ?_
    have : b = false := by
      rw [hb]
      simpa [isOperator, ← hk] using hnot
    rw [if_neg (by simp [this])]
    exact .pure rfl
  · exact absurd hk.symm hminus
  · exact .pure rfl

/-- A step that gives these values, up to what `u` tells apart, and then nothing. -/
inductive Gives (step : Parser (Option α)) (u : α → β) :
    List Piece → List α → List Piece → Prop where
  | nil {ps : List Piece} (stop : Gets step ps (· = none) ps) : Gives step u ps [] ps
  | cons {ps ps₁ ps' : List Piece} {a : α} {as : List α}
      (head : Gets step ps (fun x => ∃ b, x = some b ∧ u b = u a) ps₁)
      (tail : Gives step u ps₁ as ps') : Gives step u ps (a :: as) ps'

theorem gets_many {step : Parser (Option α)} {u : α → β} {as : List α}
    (h : Gives step u ps as rs) (hlen : as.length ≤ ps.length) :
    Gets (many step) ps (fun bs => bs.map u = as.map u) rs := by
  have run : ∀ {fuel : Nat} {ps : List Piece} {as : List α}, Gives step u ps as rs →
      as.length < fuel → Gets (repeatStep step fuel) ps (fun bs => bs.map u = as.map u) rs := by
    intro fuel
    induction fuel with
    | zero => intro ps as _ hf; omega
    | succ fuel ih =>
      intro ps as h hf
      cases h with
      | nil stop =>
        refine stop.bind fun x hx => ?_
        subst hx
        exact .pure rfl
      | cons head tail =>
        refine head.bind fun x hx => ?_
        obtain ⟨b, rfl, hb⟩ := hx
        simp only [List.length_cons, Nat.add_lt_add_iff_right] at hf
        refine (ih tail hf).bind fun bs hbs => .pure ?_
        rw [List.map_cons, List.map_cons, hb, hbs]
  intro t ht
  have hrest := ht.length_rest
  exact run h (by omega) t ht

theorem gets_itemsFrom_last {b : Brackets} {item : Parser α} {P : α → Prop} {p : Piece}
    (hitem : Gets item ps P (p :: rs)) (hp : p.kind = b.close) (hb : b.close ≠ .comma)
    (hw : b.close ≠ .whitespace) (fuel : Nat) :
    Gets (itemsFrom o b item (fuel + 1)) ps (fun bs => ∃ b, bs = [b] ∧ P b) rs := by
  unfold itemsFrom
  refine hitem.bind fun a ha => ?_
  refine (gets_innerBlank (by rw [headKind_cons, hp]; exact hw) _).bind fun _ _ => ?_
  refine (gets_next p).bind fun t ht => ?_
  have hk : t.kind = b.close := (congrArg Piece.kind ht).trans hp
  rw [if_neg (by rw [hk]; exact hb), if_pos hk]
  exact .pure ⟨a, rfl, ha⟩

theorem gets_itemsFrom_cons {b : Brackets} {item : Parser α} {P : α → Prop} {Q : List α → Prop}
    (hitem : Gets item ps P (comma :: qs)) (hqs : headKind qs ≠ .whitespace) {fuel : Nat}
    (htail : Gets (itemsFrom o b item fuel) qs Q rs) :
    Gets (itemsFrom o b item (fuel + 1)) ps (fun bs => ∃ b bs', bs = b :: bs' ∧ P b ∧ Q bs') rs := by
  unfold itemsFrom
  refine hitem.bind fun a ha => ?_
  refine (gets_innerBlank (by simp [comma]) _).bind fun _ _ => ?_
  refine (gets_next comma).bind fun t ht => ?_
  rw [if_pos (show t.kind = .comma from congrArg Piece.kind ht)]
  refine (gets_innerBlank hqs _).bind fun _ _ => ?_
  exact htail.bind fun bs hbs => .pure ⟨a, bs, rfl, ha, hbs⟩

end Parser

end ListQuery.Filter
