/-
Which tokens a run takes. A run that succeeds takes the tokens in front, and without the blanks
these are the tokens that its tree stands on (`Takes`, `Reads`). Each production does so when the
productions one level of nesting down do, so all of them do (`expression_reads`). Looking ahead takes
nothing (`Keeps`), and going back takes back only what was looked at.
-/
import ListQuery.Proofs.Parse.RoundTrip
import ListQuery.Proofs.Store.Load
import ListQuery.Proofs.Tree.Parts

namespace ListQuery.Filter

open Role

/-- The tokens without the blanks. -/
def Token.solid (ts : List Token) : List Token := ts.filter fun t => t.kind.isSolid

theorem Token.solid_append (ts us : List Token) : solid (ts ++ us) = solid ts ++ solid us :=
  List.filter_append ..

theorem Token.solid_cons {t : Token} (h : t.kind.isSolid = true) (ts : List Token) :
    solid (t :: ts) = t :: solid ts := by
  simp [solid, h]

/-- Where the last of the tokens ends. -/
def Token.lastStop (start : Nat) (ts : List Token) : Nat := (ts.getLast?.map Token.stop).getD start

theorem Token.lastStop_append (start : Nat) (ts us : List Token) :
    lastStop start (ts ++ us) = lastStop (lastStop start ts) us := by
  unfold lastStop
  rw [List.getLast?_append]
  cases us.getLast? with
  | none => rw [Option.none_or, Option.map_none, Option.getD_none]
  | some t => rfl

/-- Options whose grammar has a place for tokens of a kind. -/
structure ParserOptions.Admits (o : ParserOptions) (k : Kind) : Prop where
  arrays : k = .leftBracket → o.enableArrays = true
  structs : k = .leftBrace → o.enableStructs = true

namespace ParserOptions.Admits

variable {o : ParserOptions} {k : Kind}

theorem plain (h : k ≠ .leftBracket ∧ k ≠ .leftBrace) : o.Admits k :=
  ⟨fun hk => absurd hk h.1, fun hk => absurd hk h.2⟩

theorem bracket (h : o.enableArrays = true) : o.Admits .leftBracket :=
  ⟨fun _ => h, fun hk => absurd hk (by decide)⟩

theorem brace (h : o.enableStructs = true) : o.Admits .leftBrace :=
  ⟨fun hk => absurd hk (by decide), fun _ => h⟩

end ParserOptions.Admits

/-- One state stands where another does. -/
structure ParseState.Level (s s' : ParseState) : Prop where
  rest : s'.rest = s.rest
  lastEnd : s'.lastEnd = s.lastEnd

theorem ParseState.Level.trans {s s₁ s' : ParseState} (h : s.Level s₁) (h' : s₁.Level s') :
    s.Level s' :=
  ⟨h'.rest.trans h.rest, h'.lastEnd.trans h.lastEnd⟩

theorem ParseState.Level.head_kind {s s' : ParseState} (h : s.Level s') :
    s'.head.kind = s.head.kind := by
  rw [s'.head_kind, s.head_kind, ParseState.pieces, h.rest, ParseState.pieces]

theorem ParseState.level_see (s : ParseState) (t : Token) : s.Level (s.see t) := ⟨rfl, rfl⟩

/-- Between two states tokens have been taken that are admitted, and on which the parts stand, blanks
apart, if they are in order. The parser has kept where the last one ends. -/
def Takes (o : ParserOptions) (s : ParseState) (ps : List Part) (s' : ParseState) : Prop :=
  ∃ ts, s.rest = ts ++ s'.rest ∧ (∀ t ∈ ts, o.Admits t.kind) ∧
    s'.lastEnd = Token.lastStop s.lastEnd (Token.solid ts) ∧
    (ts.Pairwise Token.Before → Part.Stand ps (Token.solid ts))

namespace Takes

variable {o : ParserOptions} {s s₁ s' : ParseState} {ps qs : List Part}

theorem nothing (h : s.Level s') : Takes o s [] s' :=
  ⟨[], h.rest.symm, by simp, h.lastEnd, fun _ => .nil⟩

theorem trans (h : Takes o s ps s₁) (h' : Takes o s₁ qs s') : Takes o s (ps ++ qs) s' := by
  obtain ⟨ts, hrest, hadmits, hlast, hstand⟩ := h
  obtain ⟨us, hrest', hadmits', hlast', hstand'⟩ := h'
  refine ⟨ts ++ us, by rw [hrest, hrest', List.append_assoc], ?_, ?_, fun hord => ?_⟩
  · intro t ht
    exact (List.mem_append.1 ht).elim (hadmits t) (hadmits' t)
  · rw [Token.solid_append, Token.lastStop_append, ← hlast, hlast']
  · obtain ⟨hord, hord', -⟩ := List.pairwise_append.1 hord
    rw [Token.solid_append]
    exact (hstand hord).append (hstand' hord')

theorem cons {p : Part} (h : Takes o s [p] s₁) (h' : Takes o s₁ qs s') : Takes o s (p :: qs) s' :=
  h.trans h'

/-- Blanks before or behind count for nothing. -/
theorem after (h : Takes o s [] s₁) (h' : Takes o s₁ qs s') : Takes o s qs s' := h.trans h'

theorem before (h : Takes o s ps s₁) (h' : Takes o s₁ [] s') : Takes o s ps s' := by
  simpa using h.trans h'

theorem congr (h : Takes o s₁ ps s') (hs : s.Level s₁) : Takes o s ps s' := (nothing hs).after h

theorem map (h : Takes o s ps s') (f : ∀ {ts}, Part.Stand ps ts → Part.Stand qs ts) :
    Takes o s qs s' := by
  obtain ⟨ts, hrest, hadmits, hlast, hstand⟩ := h
  exact ⟨ts, hrest, hadmits, hlast, fun hord => f (hstand hord)⟩

theorem length_le (h : Takes o s ps s') : s'.rest.length ≤ s.rest.length := by
  obtain ⟨ts, hrest, -⟩ := h
  rw [hrest, List.length_append]
  exact Nat.le_add_left _ _

end Takes

/-- A run that starts with the token in front, which is no blank. -/
structure Reads (o : ParserOptions) (s : ParseState) (ps : List Part) (s' : ParseState) : Prop where
  solid : s.head.kind.isSolid = true
  less : s'.rest.length < s.rest.length
  takes : Takes o s ps s'

namespace Reads

variable {o : ParserOptions} {s s₁ s' : ParseState} {ps qs : List Part}

theorem trans (h : Reads o s ps s₁) (h' : Takes o s₁ qs s') : Reads o s (ps ++ qs) s' :=
  ⟨h.solid, Nat.lt_of_le_of_lt h'.length_le h.less, h.takes.trans h'⟩

theorem cons {p : Part} (h : Reads o s [p] s₁) (h' : Takes o s₁ qs s') : Reads o s (p :: qs) s' :=
  h.trans h'

theorem before (h : Reads o s ps s₁) (h' : Takes o s₁ [] s') : Reads o s ps s' := by
  simpa using h.trans h'

theorem congr (h : Reads o s₁ ps s') (hs : s.Level s₁) : Reads o s ps s' := by
  refine ⟨?_, hs.rest ▸ h.less, h.takes.congr hs⟩
  rw [← hs.head_kind]
  exact h.solid

theorem map (h : Reads o s ps s') (f : ∀ {ts}, Part.Stand ps ts → Part.Stand qs ts) :
    Reads o s qs s' :=
  ⟨h.solid, h.less, h.takes.map f⟩

/-- A node whose parts have been taken, with the span from the token in front to the end of the last
token taken. -/
theorem node {n : Node} (h : Reads o s n.parts s')
    (hspan : n.span = ⟨s.head.pos, max s'.lastEnd s.head.pos.offset⟩) : Reads o s [.node n] s' := by
  refine ⟨h.solid, h.less, ?_⟩
  obtain ⟨ts, hrest, hadmits, hlast, hstand⟩ := h.takes
  refine ⟨ts, hrest, hadmits, hlast, fun hord => Part.stand_single (.intro (hstand hord) ?_)⟩
  cases ts with
  | nil =>
    have hless := h.less
    rw [hrest, List.nil_append] at hless
    exact absurd hless (Nat.lt_irrefl _)
  | cons t ts =>
    obtain rfl : s.head = t := by rw [ParseState.head, hrest]; rfl
    have hord' : (Token.solid (s.head :: ts)).Pairwise Token.Before := hord.filter _
    rw [Token.solid_cons h.solid] at hlast hord' ⊢
    obtain ⟨last, hlast'⟩ : ∃ last, (s.head :: Token.solid ts).getLast? = some last :=
      ⟨_, List.getLast?_eq_some_getLast (List.cons_ne_nil _ _)⟩
    have hstop : s'.lastEnd = last.stop := by rw [hlast, Token.lastStop, hlast']; rfl
    have hle : s.head.pos.offset ≤ last.stop :=
      Nat.le_trans s.head.offset_le_stop (Token.le_last hord' hlast' List.mem_cons_self)
    refine ⟨s.head, last, rfl, hlast', ?_⟩
    rw [hspan, hstop, Nat.max_eq_left hle]

end Reads

namespace Parser

variable {α β : Type} {o : ParserOptions} {inner : Inner} {s s₁ s' : ParseState}

/-- A step that leaves the parser where it stands. -/
def Keeps (p : Parser α) : Prop := ∀ {s a s'}, p s = .ok a s' → s.Level s'

theorem keeps_pure (a : α) : Keeps (pure a) := by
  intro s b s' h
  rw [(pure_ok.1 h).2]
  exact ⟨rfl, rfl⟩

theorem Keeps.bind {p : Parser α} {f : α → Parser β} (hp : Keeps p) (hf : ∀ a, Keeps (f a)) :
    Keeps (p >>= f) := by
  intro s b s' h
  obtain ⟨a, s₁, h₁, h₂⟩ := bind_ok.1 h
  exact (hp h₁).trans (hf a h₂)

theorem keeps_peek : Keeps peek := by
  intro s t s' h
  rw [(peek_ok h).2]
  exact s.level_see _

theorem keeps_peekKind : Keeps peekKind := by
  intro s k s' h
  rw [(peekKind_ok h).2]
  exact s.level_see _

theorem keeps_keywordIsOperator : Keeps keywordIsOperator := by
  intro s b s' h
  simp only [keywordIsOperator, EStateM.Result.ok.injEq] at h
  rw [← h.2]
  exact s.level_see _

theorem keeps_startsFactor (o : ParserOptions) : Keeps (startsFactor o) := by
  refine keeps_peekKind.bind fun k => ?_
  split
  case h_1 | h_2 => exact keeps_keywordIsOperator.bind fun _ => keeps_pure _
  all_goals exact keeps_pure _

theorem keeps_comparator? (o : ParserOptions) (t : Token) : Keeps (comparator? o t) := by
  unfold comparator?
  split
  · split
    · refine keeps_keywordIsOperator.bind fun b => ?_
      split <;> exact keeps_pure _
    · exact keeps_pure _
  · exact keeps_pure _

theorem keeps_requireSpace (o : ParserOptions) (blank : Option Token) (place : String) :
    Keeps (requireSpace o blank place) := by
  intro s x s' h
  rw [requireSpace_eq h]
  exact ⟨rfl, rfl⟩

/-- Where no operator has been met, no place of one is kept. -/
theorem takes_unjoined (s : ParseState) : Takes o s [.unjoined none] s :=
  ⟨[], rfl, by simp, rfl, fun _ => .unjoined .nil⟩

theorem spanFrom_eq {start : Position} {x : Span} (h : spanFrom start s = .ok x s') :
    s = s' ∧ x = ⟨start, max s'.lastEnd start.offset⟩ := by
  simp only [spanFrom, EStateM.Result.ok.injEq] at h
  obtain ⟨rfl, rfl⟩ := h
  exact ⟨rfl, rfl⟩

theorem level_restore {saved : ParseState} {x : Unit} (h : restore saved s = .ok x s') :
    saved.Level s' := by
  simp only [restore, EStateM.Result.ok.injEq] at h
  rw [← h.2]
  exact ⟨rfl, rfl⟩

/-! ## Steps that take a token -/

theorem next_eq {t : Token} (h : next s = .ok t s') :
    t = s.head ∧ s' = (s.see s.head).advance := by
  simp only [next, EStateM.Result.ok.injEq] at h
  exact ⟨h.1.symm, h.2.symm⟩

theorem rest_of_head (h : s.head.kind ≠ .eof) : s.rest = s.head :: s.rest.tail := by
  unfold ParseState.head at *
  cases hr : s.rest with
  | nil =>
    rw [hr] at h
    exact absurd rfl h
  | cons t ts => rfl

/-- The token in front is taken. -/
theorem advance_reads {p : Part} (hsolid : s.head.kind.isSolid = true)
    (hadmits : o.Admits s.head.kind) (hstand : Part.Stand [p] [s.head]) :
    Reads o s [p] (s.see s.head).advance := by
  have hblank : ¬(s.head.kind = .whitespace ∨ s.head.kind = .eof) := by
    rintro (h | h) <;> rw [h] at hsolid <;> cases hsolid
  have hrest : s.rest = [s.head] ++ (s.see s.head).advance.rest :=
    rest_of_head fun h => hblank (.inr h)
  have hone : Token.solid [s.head] = [s.head] := Token.solid_cons hsolid []
  refine ⟨hsolid, ?_, [s.head], hrest, ?_, ?_, fun _ => by rwa [hone]⟩
  · rw [hrest, List.singleton_append, List.length_cons]
    exact Nat.lt_succ_self _
  · simpa using hadmits
  · rw [hone]
    exact if_neg hblank

theorem isSolid_of_spelling {k : Kind} {x : String} (h : k.spelling? = some x) :
    k.isSolid = true := by
  cases k <;> first | rfl | cases h

theorem ne_eof_of_spelling {k : Kind} {x : String} (h : k.spelling? = some x) : k ≠ .eof := by
  rintro rfl
  cases h

/-- An operator or a delimiter that is in front. -/
theorem nextSign_reads {t : Token} {p : Piece} (h : next s = .ok t s') (hk : s.head.kind = p.kind)
    (hp : p.kind.spelling? = some p.text) (ho : o.Admits p.kind) :
    Reads o s [.token (sign p)] s' := by
  obtain ⟨-, rfl⟩ := next_eq h
  exact advance_reads (hk ▸ isSolid_of_spelling hp) (hk ▸ ho) (.token ⟨hk, hp⟩ .nil)

/-- A sign that was in front when the parser looked ahead. -/
theorem seenSign_reads {t : Token} {p : Piece} (hs : s.Level s₁) (h : next s₁ = .ok t s')
    (hk : s.head.kind = p.kind) (hp : p.kind.spelling? = some p.text) (ho : o.Admits p.kind) :
    Reads o s [.token (sign p)] s' := by
  have hkind : s₁.head.kind = p.kind := by rw [← hk, hs.head_kind]
  exact (nextSign_reads h hkind hp ho).congr hs

/-- An operator whose place is kept. -/
theorem seenOperator_takes {t : Token} {p : Piece} (hs : s.Level s₁) (h : next s₁ = .ok t s')
    (hk : s.head.kind = p.kind) (hp : p.kind.spelling? = some p.text) (ho : o.Admits p.kind) :
    t = s.head ∧ Takes o s [.operator p (some s.head.pos)] s' := by
  obtain ⟨rfl, rfl⟩ := next_eq h
  have hne : s.head.kind ≠ .eof := ne_eof_of_spelling (hk ▸ hp)
  have hhead : s₁.head = s.head := by rw [ParseState.head, hs.rest, rest_of_head hne]; rfl
  rw [← hhead] at hk ⊢
  refine ⟨rfl, ?_⟩
  have hreads : Reads o s₁ [.operator p (some s₁.head.pos)] (s₁.see s₁.head).advance :=
    advance_reads (hk ▸ isSolid_of_spelling hp) (hk ▸ ho) (.operator ⟨hk, hp⟩ .nil)
  exact hreads.takes.congr hs

theorem expect_reads {p : Piece} {what : String} {t : Token} (h : expect p.kind what s = .ok t s')
    (hp : p.kind.spelling? = some p.text) (ho : o.Admits p.kind) :
    Reads o s [.token (sign p)] s' ∧ t = s.head := by
  simp only [expect, bind_ok] at h
  obtain ⟨t₁, s₁, h₁, h⟩ := h
  have ht := (next_eq h₁).1
  split at h
  · rename_i hk
    obtain ⟨rfl, rfl⟩ := pure_ok.1 h
    exact ⟨nextSign_reads h₁ (ht ▸ hk) hp ho, ht⟩
  · exact absurd h unexpected_ok

theorem nextLeaf_reads {t : Token} {what : String} {l : Leaf} (h₁ : next s = .ok t s₁)
    (h : leaf t what s₁ = .ok l s') : Reads o s [.token (.leaf l)] s' := by
  obtain ⟨ht, rfl⟩ := leaf_ok h
  obtain ⟨rfl, rfl⟩ := next_eq h₁
  have hleaf := l.leaf
  rw [ht] at hleaf
  refine advance_reads ?_ ⟨fun hk => ?_, fun hk => ?_⟩ (.token ht .nil)
  · cases hkind : s.head.kind <;> first | rfl | (rw [hkind] at hleaf; cases hleaf)
  all_goals
    rw [hk] at hleaf
    cases hleaf

theorem eat_eq {kind : Kind} {t : Option Token} (h : eat kind s = .ok t s') :
    (s.head.kind = kind ∧ t = some s.head ∧ s' = (s.see s.head).advance) ∨
      (s.head.kind ≠ kind ∧ t = none ∧ s' = s.see s.head) := by
  unfold eat at h
  split at h <;> rename_i hk <;> simp only [EStateM.Result.ok.injEq] at h <;>
    obtain ⟨rfl, rfl⟩ := h
  · exact .inl ⟨hk, rfl, rfl⟩
  · exact .inr ⟨hk, rfl, rfl⟩

theorem skipBlank_takes {t : Option Token} (h : skipBlank s = .ok t s') : Takes o s [] s' := by
  rcases eat_eq h with ⟨hk, -, rfl⟩ | ⟨-, -, rfl⟩
  · have hnone : Token.solid [s.head] = [] := by simp [Token.solid, hk, Kind.isSolid]
    refine ⟨[s.head], rest_of_head (by simp [hk]), ?_, ?_, fun _ => by rw [hnone]; exact .nil⟩
    · simp only [List.mem_singleton, forall_eq, hk]
      exact .plain (by decide)
    · rw [hnone]
      exact if_pos (.inl hk)
  · exact .nothing (s.level_see _)

theorem innerBlank_takes {place : String} {x : Unit} (h : innerBlank o place s = .ok x s') :
    Takes o s [] s' := by
  simp only [innerBlank, bind_ok] at h
  obtain ⟨t, s₁, h₁, h⟩ := h
  have htakes : Takes o s [] s₁ := skipBlank_takes h₁
  split at h
  · split at h
    · exact absurd h fail_ok
    · rwa [← (pure_ok.1 h).2]
  · rwa [← (pure_ok.1 h).2]

/-- A repeated step takes the tokens of all that it gives. -/
theorem many_takes {step : Parser (Option α)} {y : α → List Part} {as : List α}
    (hstep : ∀ {s x s'}, step s = .ok x s' → Takes o s (x.elim [] y) s')
    (h : many step s = .ok as s') : Takes o s (as.flatMap y) s' := by
  have run : ∀ (fuel : Nat) {s : ParseState} {as : List α}, repeatStep step fuel s = .ok as s' →
      Takes o s (as.flatMap y) s' := by
    intro fuel
    induction fuel with
    | zero =>
      intro s as h
      obtain ⟨rfl, rfl⟩ := pure_ok.1 h
      exact .nothing ⟨rfl, rfl⟩
    | succ fuel ih =>
      intro s as h
      simp only [repeatStep, bind_ok] at h
      obtain ⟨x, s₁, h₁, h⟩ := h
      cases x with
      | none =>
        obtain ⟨rfl, rfl⟩ := pure_ok.1 h
        exact hstep h₁
      | some a =>
        simp only [bind_ok, pure_ok] at h
        obtain ⟨as', s₂, h₂, rfl, rfl⟩ := h
        exact (hstep h₁).trans (ih h₂)
  exact run _ h

section Items

variable {b : Brackets} {item : Parser α} {y : α → List Part} {c : Piece}

/-- Each comma is a token, so the items end before the tokens do. -/
theorem itemsFrom_takes (hb : b.close = c.kind) (hc : c.kind.spelling? = some c.text)
    (ho : o.Admits c.kind) (hitem : ∀ {s a s'}, item s = .ok a s' → Takes o s (y a) s') :
    ∀ (fuel : Nat) {s : ParseState} {as : List α}, s.rest.length < fuel →
      itemsFrom o b item fuel s = .ok as s' →
      as ≠ [] ∧ Takes o s (Part.items (as.map y) c) s' := by
  intro fuel
  induction fuel with
  | zero => intro s as hf; omega
  | succ fuel ih =>
    intro s as hf h
    simp only [itemsFrom, bind_ok] at h
    obtain ⟨a, s₁, h₁, _, s₂, h₂, t, s₃, h₃, h⟩ := h
    obtain ⟨rfl, -⟩ := next_eq h₃
    have hfirst : Takes o s (y a) s₂ := (hitem h₁).before (innerBlank_takes h₂)
    split at h
    · rename_i hk
      simp only [bind_ok, pure_ok] at h
      obtain ⟨_, s₄, h₄, as', s₅, h₅, rfl, rfl⟩ := h
      have hcomma : Reads o s₂ [.token comma] s₄ :=
        (nextSign_reads (p := .comma) h₃ hk rfl (.plain (by decide))).before (innerBlank_takes h₄)
      have hless := hcomma.less
      have hle := hfirst.length_le
      obtain ⟨hne, htail⟩ := ih (by omega) h₅
      refine ⟨List.cons_ne_nil _ _, ?_⟩
      obtain ⟨a', as, rfl⟩ := List.exists_cons_of_ne_nil hne
      rw [Part.items, List.map_cons, List.map_cons, List.intercalate_cons_cons, List.append_assoc,
        List.append_assoc, ← List.map_cons]
      exact hfirst.trans (hcomma.takes.trans htail)
    · split at h
      · rename_i hk
        obtain ⟨rfl, rfl⟩ := pure_ok.1 h
        refine ⟨List.cons_ne_nil _ _, ?_⟩
        rw [Part.items, List.map_cons, List.map_nil, List.intercalate_singleton]
        exact hfirst.trans (nextSign_reads h₃ (hk.trans hb) hc ho).takes
      · exact absurd h unexpected_ok

theorem delimited_takes (hb : b.close = c.kind) (hc : c.kind.spelling? = some c.text)
    (ho : o.Admits c.kind) (hitem : ∀ {s a s'}, item s = .ok a s' → Takes o s (y a) s')
    {as : List α} (h : delimited o b item s = .ok as s') :
    Takes o s (Part.items (as.map y) c) s' := by
  simp only [delimited, bind_ok] at h
  obtain ⟨_, s₁, h₁, t, s₂, h₂, h⟩ := h
  refine (innerBlank_takes h₁).after ?_
  rcases eat_eq h₂ with ⟨hk, rfl, rfl⟩ | ⟨-, rfl, rfl⟩
  · obtain ⟨rfl, rfl⟩ := pure_ok.1 h
    have hnext : next s₁ = .ok s₁.head (s₁.see s₁.head).advance := rfl
    exact (nextSign_reads hnext (hk.trans hb) hc ho).takes
  · exact (itemsFrom_takes hb hc ho hitem _ (Nat.lt_succ_self _) h).2.congr (s₁.level_see _)

end Items

/-! ## Comparables -/

/-- The productions one level down read what they give. -/
structure Inner.Read (o : ParserOptions) (inner : Inner) : Prop where
  expression : ∀ {s e s'}, inner.expression s = .ok e s' → Reads o s [.node (.expression e)] s'
  comparable : ∀ {s c s'}, inner.comparable s = .ok c s' → Reads o s [.node (.comparable c)] s'

theorem composite_reads (hi : inner.Read o) {c : Composite} (h : composite inner s = .ok c s') :
    Reads o s [.node (.composite c)] s' := by
  simp only [composite, bind_ok, pure_ok] at h
  obtain ⟨t, s₁, h₁, _, s₂, h₂, e, s₃, h₃, _, s₄, h₄, t', s₅, h₅, x, s₆, h₆, rfl, rfl⟩ := h
  obtain ⟨rfl, rfl⟩ := spanFrom_eq h₆
  obtain ⟨hopen, rfl⟩ := expect_reads (o := o) (p := ⟨.leftParen, "("⟩) h₁ rfl (.plain (by decide))
  have hclose : Takes o s₄ [.token (sign ⟨.rightParen, ")"⟩)] s₅ :=
    (expect_reads (p := ⟨.rightParen, ")"⟩) h₅ rfl (.plain (by decide))).1.takes
  refine Reads.node ?_ rfl
  exact (hopen.before (skipBlank_takes h₂)).cons
    ((hi.expression h₃).takes.cons ((skipBlank_takes h₄).after hclose))

theorem arg_reads (hi : inner.Read o) {a : Arg} (h : arg inner s = .ok a s') :
    Reads o s [.node a.node] s' := by
  simp only [arg, bind_ok] at h
  obtain ⟨k, s₁, h₁, h⟩ := h
  have hkeeps := keeps_peekKind h₁
  split at h
  · simp only [bind_ok, pure_ok] at h
    obtain ⟨c, s₂, h₂, rfl, rfl⟩ := h
    exact (composite_reads hi h₂).congr hkeeps
  · simp only [bind_ok, pure_ok] at h
    obtain ⟨c, s₂, h₂, rfl, rfl⟩ := h
    exact (hi.comparable h₂).congr hkeeps

theorem dottedLeaf_takes {x : Option Leaf} (h : dottedLeaf s = .ok x s') :
    Takes o s (x.elim [] fun l => [.token Role.dot, .token (.leaf l)]) s' := by
  simp only [dottedLeaf, bind_ok] at h
  obtain ⟨k, s₁, h₁, h⟩ := h
  obtain ⟨rfl, rfl⟩ := peekKind_ok h₁
  split at h
  · rename_i hk
    simp only [bind_ok, pure_ok] at h
    obtain ⟨t, s₂, h₂, t₃, s₃, h₃, l', s₄, h₄, rfl, rfl⟩ := h
    rw [← s.head_kind] at hk
    have hdot : Reads o s [.token Role.dot] s₂ :=
      seenSign_reads (p := .dot) (s.level_see _) h₂ hk rfl (.plain (by decide))
    exact hdot.takes.cons (nextLeaf_reads h₃ h₄).takes
  · obtain ⟨rfl, rfl⟩ := pure_ok.1 h
    exact .nothing (s.level_see _)

theorem dottedLeaf_less {l : Leaf} (h : dottedLeaf s = .ok (some l) s') :
    s'.rest.length < s.rest.length := by
  simp only [dottedLeaf, bind_ok] at h
  obtain ⟨k, s₁, h₁, h⟩ := h
  have hlevel := keeps_peekKind h₁
  split at h
  · simp only [bind_ok, pure_ok] at h
    obtain ⟨t, s₂, h₂, t', s₃, h₃, l', s₄, h₄, -, rfl⟩ := h
    obtain ⟨-, rfl⟩ := next_eq h₂
    have hless := (nextLeaf_reads (o := {}) h₃ h₄).less
    have hle : (s₁.see s₁.head).advance.rest.length ≤ s.rest.length := by
      rw [← hlevel.rest]
      exact (List.tail_sublist _).length_le
    omega
  · cases (pure_ok.1 h).1

theorem path_reads {t : Token} {what : String} {value : Leaf} {fields : List Leaf}
    {s₂ : ParseState} (h₀ : next s = .ok t s₁) (h₁ : leaf t what s₁ = .ok value s₂)
    (h : many dottedLeaf s₂ = .ok fields s') : Reads o s (Part.ofPath (value :: fields)) s' := by
  have hfields : Takes o s₂ (fields.flatMap fun l => [.token Role.dot, .token (.leaf l)]) s' :=
    many_takes dottedLeaf_takes h
  have hpath : Part.ofPath (value :: fields) =
      .token (.leaf value) :: fields.flatMap fun l => [.token Role.dot, .token (.leaf l)] := by
    rw [Part.ofPath, Role.ofPath, List.map_cons, intercalate_eq]
    simp [writtenTail, List.map_flatMap]
  rw [hpath]
  exact (nextLeaf_reads h₀ h₁).cons hfields

theorem call_reads (hi : inner.Read o) {name : List Leaf} {c : Call}
    (hname : Reads o s₁ (Part.ofPath name) s) (h : call o inner name s₁.head.pos s = .ok c s') :
    Reads o s₁ [.node (.comparable (.call c))] s' := by
  simp only [call, bind_ok, pure_ok] at h
  obtain ⟨t, s₂, h₂, args, s₃, h₃, x, s₄, h₄, rfl, rfl⟩ := h
  obtain ⟨rfl, rfl⟩ := spanFrom_eq h₄
  have hopen : Takes o s [.token (sign ⟨.leftParen, "("⟩)] s₂ :=
    (expect_reads (p := ⟨.leftParen, "("⟩) h₂ rfl (.plain (by decide))).1.takes
  have hargs := delimited_takes (c := ⟨.rightParen, ")"⟩) rfl rfl (.plain (by decide))
    (fun h => (arg_reads hi h).takes) h₃
  exact (hname.trans (hopen.cons hargs)).node rfl

theorem arrayLiteral_reads (hi : inner.Read o) (ho : o.enableArrays = true) {a : ArrayLiteral}
    (h : arrayLiteral o inner s = .ok a s') : Reads o s [.node (.comparable (.array a))] s' := by
  simp only [arrayLiteral, bind_ok, pure_ok] at h
  obtain ⟨t, s₁, h₁, elements, s₂, h₂, x, s₃, h₃, rfl, rfl⟩ := h
  obtain ⟨rfl, rfl⟩ := spanFrom_eq h₃
  obtain ⟨hopen, rfl⟩ := expect_reads (o := o) (p := ⟨.leftBracket, "["⟩) h₁ rfl
    (.bracket ho)
  have helements := delimited_takes (c := ⟨.rightBracket, "]"⟩) rfl rfl (.plain (by decide))
    (fun h => (hi.comparable h).takes) h₂
  exact (hopen.cons helements).node rfl

theorem structEntry_reads (hi : inner.Read o) {e : StructEntry}
    (h : structEntry o inner s = .ok e s') : Reads o s (Part.ofEntry e) s' := by
  simp only [structEntry, bind_ok, pure_ok] at h
  obtain ⟨t, s₁, h₁, l, s₂, h₂, _, s₃, h₃, t', s₄, h₄, _, s₅, h₅, v, s₆, h₆, rfl, rfl⟩ := h
  have hname : Reads o s [.token (.leaf l)] s₃ :=
    (nextLeaf_reads h₁ h₂).before (innerBlank_takes h₃)
  have hcolon : Takes o s₃ [.token Role.colon] s₅ :=
    (expect_reads (p := .colon) h₄ rfl (.plain (by decide))).1.takes.before (innerBlank_takes h₅)
  exact hname.cons (hcolon.cons (hi.comparable h₆).takes)

/-- The entries of a struct literal in their braces, and what follows from them for the literal,
with its name or without one. -/
theorem structLiteral_reads (hi : inner.Read o) (ho : o.enableStructs = true) {name : List Leaf}
    {x : StructLiteral}
    (hname : Reads o s₁ (Part.ofPath name) s ∨ name = [] ∧ s₁.Level s)
    (h : structLiteral o inner name s₁.head.pos s = .ok x s') :
    Reads o s₁ [.node (.comparable (.struct x))] s' := by
  simp only [structLiteral, bind_ok, pure_ok] at h
  obtain ⟨t, s₂, h₂, entries, s₃, h₃, x, s₄, h₄, rfl, rfl⟩ := h
  obtain ⟨rfl, rfl⟩ := spanFrom_eq h₄
  have hopen : Reads o s [.token (sign ⟨.leftBrace, "\x7b"⟩)] s₂ :=
    (expect_reads (p := ⟨.leftBrace, "\x7b"⟩) h₂ rfl (.brace ho)).1
  have hentries := delimited_takes (c := ⟨.rightBrace, "\x7d"⟩) rfl rfl (.plain (by decide))
    (fun h => (structEntry_reads hi h).takes) h₃
  have hbody := hopen.cons hentries
  refine Reads.node ?_ rfl
  rcases hname with hname | ⟨rfl, hlevel⟩
  · exact hname.trans hbody.takes
  · exact hbody.congr hlevel

theorem nameRun_reads (hi : inner.Read o) {c : Comparable} (h : nameRun o inner s = .ok c s') :
    Reads o s [.node (.comparable c)] s' := by
  simp only [nameRun, bind_ok] at h
  obtain ⟨t, s₀, h₀, value, s₁, h₁, fields, s₂, h₂, k, s₃, h₃, h⟩ := h
  obtain ⟨rfl, -⟩ := next_eq h₀
  have hpath : Reads o s (Part.ofPath (value :: fields)) s₃ :=
    (path_reads h₀ h₁ h₂).before (.nothing (keeps_peekKind h₃))
  have hmember : ∀ {y s₄}, spanFrom s.head.pos s₃ = .ok y s₄ →
      Reads o s [.node (.comparable (.member ⟨y, value, fields⟩))] s₄ := by
    intro y s₄ h₄
    obtain ⟨rfl, rfl⟩ := spanFrom_eq h₄
    exact hpath.node rfl
  split at h
  · simp only [bind_ok, pure_ok] at h
    obtain ⟨_, s₄, h₄, x, s₅, h₅, rfl, rfl⟩ := h
    obtain ⟨rfl, -⟩ := checkName_ok h₄
    exact call_reads hi hpath h₅
  · split at h
    · rename_i ho
      simp only [bind_ok, pure_ok] at h
      obtain ⟨_, s₄, h₄, x, s₅, h₅, rfl, rfl⟩ := h
      obtain ⟨rfl, -⟩ := checkName_ok h₄
      exact structLiteral_reads hi ho (.inl hpath) h₅
    · simp only [bind_ok, pure_ok] at h
      obtain ⟨x, s₄, h₄, rfl, rfl⟩ := h
      exact hmember h₄
  · simp only [bind_ok, pure_ok] at h
    obtain ⟨x, s₄, h₄, rfl, rfl⟩ := h
    exact hmember h₄

theorem comparableBody_reads (hi : inner.Read o) {c : Comparable}
    (h : comparableBody o inner s = .ok c s') : Reads o s [.node (.comparable c)] s' := by
  simp only [comparableBody, bind_ok] at h
  obtain ⟨t, s₁, h₁, h⟩ := h
  have hlevel := keeps_peek h₁
  obtain ⟨rfl, -⟩ := peek_ok h₁
  split at h
  · rename_i hk
    simp only [bind_ok, pure_ok] at h
    obtain ⟨x, s₂, h₂, rfl, rfl⟩ := h
    exact (arrayLiteral_reads hi hk.2 h₂).congr hlevel
  split at h
  · rename_i hk
    simp only [bind_ok, pure_ok] at h
    obtain ⟨x, s₂, h₂, rfl, rfl⟩ := h
    exact structLiteral_reads hi hk.2 (.inr ⟨rfl, hlevel⟩) h₂
  split at h
  · exact (nameRun_reads hi h).congr hlevel
  · simp only [bind_ok] at h
    obtain ⟨_, _, _, h⟩ := h
    exact absurd h unexpected_ok

theorem restriction_reads (hi : inner.Read o) {r : Restriction}
    (h : restriction o inner s = .ok r s') : Reads o s [.node (.restriction r)] s' := by
  simp only [restriction, bind_ok] at h
  obtain ⟨t, s₁, h₁, c, s₂, h₂, saved, s₃, h₃, _, s₄, h₄, t₅, s₅, h₅, x, s₆, h₆, h⟩ := h
  obtain ⟨rfl, rfl⟩ := get_ok.1 h₃
  have hleft : Reads o s [.node (.comparable c)] s₂ := (hi.comparable h₂).congr (keeps_peek h₁)
  obtain ⟨rfl, -⟩ := peek_ok h₁
  obtain ⟨rfl, rfl⟩ := peek_ok h₅
  have hlevel : s₄.Level s₆ := (s₄.level_see _).trans (keeps_comparator? o _ h₆)
  cases x with
  | none =>
    simp only [bind_ok, pure_ok] at h
    obtain ⟨_, s₇, h₇, y, s₈, h₈, rfl, rfl⟩ := h
    obtain ⟨rfl, rfl⟩ := spanFrom_eq h₈
    exact (hleft.before (.nothing (level_restore h₇))).node rfl
  | some c' =>
    simp only [bind_ok, pure_ok] at h
    obtain ⟨t₇, s₇, h₇, _, s₈, h₈, a, s₉, h₉, y, s₁₀, h₁₀, rfl, rfl⟩ := h
    obtain ⟨rfl, rfl⟩ := spanFrom_eq h₁₀
    obtain ⟨hat, -⟩ := comparator?_ok (s := s₄.see s₄.head) s₄.head_kind h₆
    have hkind : s₄.head.kind = c'.kind := s₄.head_kind.trans (comparatorAt_kind hat.symm)
    obtain ⟨-, hsign⟩ := seenOperator_takes (o := o) (p := ⟨c'.kind, c'.text⟩) hlevel h₇ hkind
      (comparator_spelling c') (by cases c' <;> exact .plain (by decide))
    have hcomparison : Takes o s₄ (Part.ofComparison ⟨c', s₄.head.pos, a⟩) s₉ :=
      (hsign.before (skipBlank_takes h₈)).cons (arg_reads hi h₉).takes
    exact (hleft.cons ((skipBlank_takes h₄).after hcomparison)).node rfl

/-- The operator before a term is taken with the blank behind it. -/
theorem unary_reads {u : Option UnaryOp} (h : unary o s = .ok u s') :
    (u = none ∧ s.Level s') ∨ Reads o s (Part.ofUnary u) s' := by
  simp only [unary, bind_ok] at h
  obtain ⟨k, s₁, h₁, h⟩ := h
  obtain ⟨hk, rfl⟩ := peekKind_ok h₁
  rw [← s.head_kind] at hk
  split at h
  · simp only [bind_ok] at h
    obtain ⟨b, s₂, h₂, h⟩ := h
    have hlevel : s.Level s₂ := (s.level_see _).trans (keeps_keywordIsOperator h₂)
    split at h
    · simp only [bind_ok, pure_ok] at h
      obtain ⟨t, s₃, h₃, x, s₄, h₄, _, s₅, h₅, rfl, rfl⟩ := h
      have hsign : Reads o s [.token (sign ⟨.notWord, "NOT"⟩)] s₃ :=
        seenSign_reads (p := ⟨.notWord, "NOT"⟩) hlevel h₃ hk.symm rfl (.plain (by decide))
      exact .inr ((hsign.before (skipBlank_takes h₄)).before
        (.nothing (keeps_requireSpace o _ _ h₅)))
    · obtain ⟨rfl, rfl⟩ := pure_ok.1 h
      exact .inl ⟨rfl, hlevel⟩
  · simp only [bind_ok, pure_ok] at h
    obtain ⟨t, s₂, h₂, _, s₃, h₃, rfl, rfl⟩ := h
    have hsign : Reads o s [.token (sign ⟨.minus, "-"⟩)] s₂ :=
      seenSign_reads (p := ⟨.minus, "-"⟩) (s.level_see _) h₂ hk.symm rfl (.plain (by decide))
    exact .inr (hsign.before (innerBlank_takes h₃))
  · obtain ⟨rfl, rfl⟩ := pure_ok.1 h
    exact .inl ⟨rfl, s.level_see _⟩

theorem simple_reads (hi : inner.Read o) {x : Simple} (h : simple o inner s = .ok x s') :
    Reads o s [.node x.node] s' := by
  simp only [simple, bind_ok] at h
  obtain ⟨k, s₁, h₁, h⟩ := h
  have hlevel := keeps_peekKind h₁
  split at h
  · simp only [bind_ok, pure_ok] at h
    obtain ⟨c, s₂, h₂, rfl, rfl⟩ := h
    exact (composite_reads hi h₂).congr hlevel
  · simp only [bind_ok, pure_ok] at h
    obtain ⟨r, s₂, h₂, rfl, rfl⟩ := h
    exact (restriction_reads hi h₂).congr hlevel

/-- A term that is read keeps no place of an `OR` yet. -/
theorem term_reads (hi : inner.Read o) {t : Term} (h : term o inner s = .ok t s') :
    Reads o s [.node (.term t), .unjoined t.orPos] s' := by
  simp only [term, bind_ok, pure_ok] at h
  obtain ⟨t, s₁, h₁, u, s₂, h₂, x, s₃, h₃, y, s₄, h₄, rfl, rfl⟩ := h
  obtain ⟨rfl, rfl⟩ := spanFrom_eq h₄
  have hlevel := keeps_peek h₁
  obtain ⟨rfl, -⟩ := peek_ok h₁
  have hparts : Reads o s (Part.ofUnary u ++ [.node x.node]) s₃ := by
    rcases unary_reads h₂ with ⟨rfl, hlevel'⟩ | hunary
    · exact (simple_reads hi h₃).congr (hlevel.trans hlevel')
    · exact (hunary.congr hlevel).trans (simple_reads hi h₃).takes
  have hnode : Reads o s [.node (.term ⟨⟨s.head.pos, max s₃.lastEnd s.head.pos.offset⟩, u, x, none⟩)]
      s₃ := hparts.node rfl
  exact hnode.cons (takes_unjoined s₃)

/-! ## Expressions -/

/-- An operator word with its blanks; if it does not come, the parser goes back. -/
theorem joiner_takes {word : Kind} {w before after : String} {x : Option Position}
    (hw : word.spelling? = some w) (h : joiner o word before after s = .ok x s')
    (ho : o.Admits word) :
    Takes o s (x.elim [] fun pos => [.operator ⟨word, w⟩ (some pos)]) s' := by
  simp only [joiner, bind_ok] at h
  obtain ⟨saved, s₁, h₁, blank, s₂, h₂, k, s₃, h₃, h⟩ := h
  obtain ⟨rfl, rfl⟩ := get_ok.1 h₁
  obtain ⟨hk, rfl⟩ := peekKind_ok h₃
  rw [← s₂.head_kind] at hk
  have back : ∀ {s₃ : ParseState},
      (restore s >>= fun _ => pure none : Parser (Option Position)) s₃ = .ok x s' →
        Takes o s (x.elim [] fun pos => [.operator ⟨word, w⟩ (some pos)]) s' := by
    intro s₃ h
    simp only [bind_ok, pure_ok] at h
    obtain ⟨_, s₄, h₄, rfl, rfl⟩ := h
    exact .nothing (level_restore h₄)
  split at h
  · rename_i hword
    simp only [bind_ok] at h
    obtain ⟨b, s₄, h₄, h⟩ := h
    split at h
    · simp only [bind_ok, pure_ok] at h
      obtain ⟨_, s₅, h₅, t, s₆, h₆, y, s₇, h₇, _, s₈, h₈, rfl, rfl⟩ := h
      have hlevel : s₂.Level s₅ :=
        ((s₂.level_see _).trans (keeps_keywordIsOperator h₄)).trans (keeps_requireSpace o _ _ h₅)
      obtain ⟨rfl, hsign⟩ :=
        seenOperator_takes (p := ⟨word, w⟩) hlevel h₆ (hk.symm.trans hword) hw ho
      have hend : Takes o s₆ [] s₈ :=
        (skipBlank_takes h₇).before (.nothing (keeps_requireSpace o _ _ h₈))
      exact (skipBlank_takes h₂).after (hsign.before hend)
    · exact back h
  · exact back h

/-- The parts of the terms that follow the first one of a factor, before they are linked. -/
def orParts (x : Position × Term) : List Part :=
  [.operator ⟨.orWord, "OR"⟩ (some x.1), .node (.term x.2), .unjoined x.2.orPos]

theorem orTerm_takes (hi : inner.Read o) {x : Option (Position × Term)}
    (h : orTerm o inner s = .ok x s') : Takes o s (x.elim [] orParts) s' := by
  simp only [orTerm, bind_ok] at h
  obtain ⟨y, s₁, h₁, h⟩ := h
  have hjoin := joiner_takes (o := o) (w := "OR") rfl h₁ (.plain (by decide))
  cases y with
  | none =>
    obtain ⟨rfl, rfl⟩ := pure_ok.1 h
    exact hjoin
  | some pos =>
    simp only [bind_ok, pure_ok] at h
    obtain ⟨t, s₂, h₂, rfl, rfl⟩ := h
    exact hjoin.cons (term_reads hi h₂).takes

theorem orTerm_less (hi : inner.Read o) {x : Position × Term}
    (h : orTerm o inner s = .ok (some x) s') : s'.rest.length < s.rest.length := by
  simp only [orTerm, bind_ok] at h
  obtain ⟨y, s₁, h₁, h⟩ := h
  have hle := (joiner_takes (o := o) (w := "OR") rfl h₁ (.plain (by decide))).length_le
  cases y with
  | none => cases (pure_ok.1 h).1
  | some pos =>
    simp only [bind_ok, pure_ok] at h
    obtain ⟨t, s₂, h₂, -, rfl⟩ := h
    have hless := (term_reads hi h₂).less
    omega

theorem linkTerms_ne_nil (first : Term) : ∀ others, linkTerms first others ≠ []
  | [] => List.cons_ne_nil _ _
  | _ :: _ => List.cons_ne_nil _ _

/-- The place of its `OR` that a term is given is no part of the term itself. -/
theorem stand_linkTerms : ∀ {first : Term} {others : List (Position × Term)} {ts : List Token},
    Part.Stand (.node (.term first) :: .unjoined first.orPos :: others.flatMap orParts) ts →
      Part.Stand (Part.ofTerms (linkTerms first others)) ts
  | _, [], _, h => h
  | first, (pos, t) :: others, ts, h => by
    obtain ⟨us, vs, rfl, hfirst, h⟩ := h.of_node
    obtain ⟨x, ws, rfl, hfits, hpos, h⟩ := h.of_unjoined.2.of_operator
    obtain rfl : pos = x.pos := Option.some.inj hpos
    rw [linkTerms, Part.ofTerms_cons (linkTerms_ne_nil t others)]
    cases hfirst with
    | intro parts span => exact .node (.intro parts span) (.operator hfits (stand_linkTerms h))

theorem factor_reads (hi : inner.Read o) {f : Factor} (h : factor o inner s = .ok f s') :
    Reads o s [.node (.factor f)] s' := by
  simp only [factor, bind_ok, pure_ok] at h
  obtain ⟨t, s₁, h₁, first, s₂, h₂, others, s₃, h₃, x, s₄, h₄, rfl, rfl⟩ := h
  obtain ⟨rfl, rfl⟩ := spanFrom_eq h₄
  have hlevel := keeps_peek h₁
  obtain ⟨rfl, -⟩ := peek_ok h₁
  have hterms := ((term_reads hi h₂).congr hlevel).trans (many_takes (orTerm_takes hi) h₃)
  exact (hterms.map stand_linkTerms).node rfl

theorem nextFactor_takes (hi : inner.Read o) {x : Option Factor}
    (h : nextFactor o inner s = .ok x s') :
    Takes o s (x.elim [] fun f => [.node (.factor f)]) s' := by
  simp only [nextFactor, bind_ok] at h
  obtain ⟨saved, s₁, h₁, blank, s₂, h₂, h⟩ := h
  obtain ⟨rfl, rfl⟩ := get_ok.1 h₁
  have hblank : Takes o s [] s₂ := skipBlank_takes h₂
  cases blank with
  | none =>
    obtain ⟨rfl, rfl⟩ := pure_ok.1 h
    exact hblank
  | some t =>
    simp only [bind_ok] at h
    obtain ⟨b, s₃, h₃, h⟩ := h
    split at h
    · simp only [bind_ok, pure_ok] at h
      obtain ⟨_, s₄, h₄, f, s₅, h₅, rfl, rfl⟩ := h
      have hlevel : s₂.Level s₄ := (keeps_startsFactor o h₃).trans (keeps_requireSpace o _ _ h₄)
      exact hblank.after ((factor_reads hi h₅).takes.congr hlevel)
    · simp only [bind_ok, pure_ok] at h
      obtain ⟨_, s₄, h₄, rfl, rfl⟩ := h
      exact .nothing (level_restore h₄)

theorem nextFactor_less (hi : inner.Read o) {f : Factor}
    (h : nextFactor o inner s = .ok (some f) s') : s'.rest.length < s.rest.length := by
  simp only [nextFactor, bind_ok] at h
  obtain ⟨saved, s₁, h₁, blank, s₂, h₂, h⟩ := h
  obtain ⟨rfl, rfl⟩ := get_ok.1 h₁
  have hle := (skipBlank_takes (o := o) h₂).length_le
  cases blank with
  | none => cases (pure_ok.1 h).1
  | some t =>
    simp only [bind_ok] at h
    obtain ⟨b, s₃, h₃, h⟩ := h
    have hlevel := keeps_startsFactor o h₃
    split at h
    · simp only [bind_ok, pure_ok] at h
      obtain ⟨_, s₄, h₄, f', s₅, h₅, -, rfl⟩ := h
      have hlevel' := hlevel.trans (keeps_requireSpace o _ _ h₄)
      have hless := (factor_reads hi h₅).less
      rw [hlevel'.rest] at hless
      omega
    · simp only [bind_ok, pure_ok] at h
      obtain ⟨_, s₄, h₄, hnone, -⟩ := h
      cases hnone

theorem sequence_reads (hi : inner.Read o) {x : Sequence} (h : sequence o inner s = .ok x s') :
    Reads o s [.node (.sequence x)] s' := by
  simp only [sequence, bind_ok, pure_ok] at h
  obtain ⟨t, s₁, h₁, first, s₂, h₂, others, s₃, h₃, x, s₄, h₄, rfl, rfl⟩ := h
  obtain ⟨rfl, rfl⟩ := spanFrom_eq h₄
  have hlevel := keeps_peek h₁
  obtain ⟨rfl, -⟩ := peek_ok h₁
  have hothers := many_takes (nextFactor_takes hi) h₃
  rw [← List.map_eq_flatMap] at hothers
  exact (((factor_reads hi h₂).congr hlevel).cons hothers).node rfl

theorem andSequence_takes (hi : inner.Read o) {x : Option Sequence}
    (h : andSequence o inner s = .ok x s') :
    Takes o s (x.elim [] fun x => [.token (sign ⟨.andWord, "AND"⟩), .node (.sequence x)]) s' := by
  simp only [andSequence, bind_ok] at h
  obtain ⟨y, s₁, h₁, h⟩ := h
  have hjoin := joiner_takes (o := o) (w := "AND") rfl h₁ (.plain (by decide))
  cases y with
  | none =>
    obtain ⟨rfl, rfl⟩ := pure_ok.1 h
    exact hjoin
  | some pos =>
    simp only [bind_ok, pure_ok] at h
    obtain ⟨x', s₂, h₂, rfl, rfl⟩ := h
    exact (hjoin.map Part.Stand.forget).cons (sequence_reads hi h₂).takes

theorem andSequence_less (hi : inner.Read o) {x : Sequence}
    (h : andSequence o inner s = .ok (some x) s') : s'.rest.length < s.rest.length := by
  simp only [andSequence, bind_ok] at h
  obtain ⟨y, s₁, h₁, h⟩ := h
  have hle := (joiner_takes (o := o) (w := "AND") rfl h₁ (.plain (by decide))).length_le
  cases y with
  | none => cases (pure_ok.1 h).1
  | some pos =>
    simp only [bind_ok, pure_ok] at h
    obtain ⟨t, s₂, h₂, -, rfl⟩ := h
    have hless := (sequence_reads hi h₂).less
    omega

theorem expressionBody_reads (hi : inner.Read o) {e : Expression}
    (h : expressionBody o inner s = .ok e s') : Reads o s [.node (.expression e)] s' := by
  simp only [expressionBody, bind_ok, pure_ok] at h
  obtain ⟨t, s₁, h₁, first, s₂, h₂, others, s₃, h₃, x, s₄, h₄, rfl, rfl⟩ := h
  obtain ⟨rfl, rfl⟩ := spanFrom_eq h₄
  have hlevel := keeps_peek h₁
  obtain ⟨rfl, -⟩ := peek_ok h₁
  have hparts := ((sequence_reads hi h₂).congr hlevel).trans (many_takes (andSequence_takes hi) h₃)
  refine Reads.node ?_ rfl
  simp only [Node.parts, List.map_cons]
  rw [intercalate_eq]
  exact hparts

theorem innerAt_read (o : ParserOptions) : ∀ levels, (innerAt o levels).Read o
  | 0 => ⟨fun h => absurd h tooDeep_ok, fun h => absurd h tooDeep_ok⟩
  | levels + 1 =>
    have hi := innerAt_read o levels
    ⟨fun h => expressionBody_reads hi h, fun h => comparableBody_reads hi h⟩

theorem expression_reads {levels : Nat} {e : Expression} (h : expression o levels s = .ok e s') :
    Reads o s [.node (.expression e)] s' :=
  (innerAt_read o levels).expression h

/-! ## Whole texts -/

theorem rest_nil_of_eof (hs : ∀ t ∈ s.rest, t.kind ≠ .eof) (h : s.head.kind = .eof) :
    s.rest = [] := by
  unfold ParseState.head at h
  cases hr : s.rest with
  | nil => rfl
  | cons t ts =>
    rw [hr] at h hs
    exact absurd h (hs t List.mem_cons_self)

/-- A whole text is taken to its end. -/
theorem filter_takes (hs : ∀ t ∈ s.rest, t.kind ≠ .eof) {x : Option Expression}
    (h : filter o s = .ok x s') :
    (∀ t ∈ s.rest, o.Admits t.kind) ∧ (s.rest.Pairwise Token.Before →
      Part.Stand (x.elim [] fun e => [.node (.expression e)]) (Token.solid s.rest)) := by
  -- with nothing left, what was taken is all there was
  have done : ∀ {ps : List Part} {s₁ : ParseState}, Takes o s ps s₁ → s₁.head.kind = .eof →
      (∀ t ∈ s.rest, o.Admits t.kind) ∧
        (s.rest.Pairwise Token.Before → Part.Stand ps (Token.solid s.rest)) := by
    rintro ps s₁ ⟨ts, hrest, hadmits, -, hstand⟩ hk
    have hnil := rest_nil_of_eof (fun t ht => hs t (hrest ▸ List.mem_append_right ts ht)) hk
    rw [hnil, List.append_nil] at hrest
    rw [hrest]
    exact ⟨hadmits, hstand⟩
  simp only [filter, bind_ok] at h
  obtain ⟨_, s₁, h₁, k, s₂, h₂, h⟩ := h
  obtain ⟨hk, rfl⟩ := peekKind_ok h₂
  rw [← s₁.head_kind] at hk
  split at h
  · rename_i heof
    obtain ⟨rfl, -⟩ := pure_ok.1 h
    exact done (skipBlank_takes h₁) (hk.symm.trans heof)
  simp only [bind_ok] at h
  obtain ⟨root, s₃, h₃, _, s₄, h₄, t, s₅, h₅, h⟩ := h
  have htakes : Takes o s [.node (.expression root)] s₄ :=
    (skipBlank_takes h₁).after (((expression_reads h₃).takes.congr (s₁.level_see _)).before
      (skipBlank_takes h₄))
  obtain ⟨rfl, -⟩ := next_eq h₅
  split at h
  · rename_i hend
    simp only [bind_ok] at h
    obtain ⟨s₆, s₇, h₇, h⟩ := h
    split at h
    · cases h
    · obtain ⟨rfl, -⟩ := pure_ok.1 h
      exact done htakes hend
  · exact absurd h unexpected_ok

end Parser

/-- The tokens of a text that are neither blanks nor its end. -/
def solidTokens (input : String) : List Token :=
  (tokenize input).filter fun t => t.kind.isSolid

theorem solidTokens_eq (input : String) :
    solidTokens input = (ParseState.ofString input).rest.filter fun t => t.kind.isSolid := by
  rw [solidTokens, tokenize, List.filter_append]
  exact List.append_nil _

theorem lexes_of_mem_solidTokens {input : String} (t : Token) (ht : t ∈ solidTokens input) :
    ∃ r, t.piece.Lexes r := by
  rw [solidTokens_eq] at ht
  exact Piece.exists_lexes_of_mem_scan (List.mem_filter.1 ht).1

theorem ne_eof_of_mem_scan {input : String} {t : Token} (ht : t ∈ (ParseState.ofString input).rest) :
    t.kind ≠ .eof := by
  obtain ⟨r, hr⟩ := Piece.exists_lexes_of_mem_scan ht
  exact hr.ne_eof

/-- A filter is read from tokens that its options admit. -/
theorem parse_admits {o : ParserOptions} {input : String} {x : Option Expression}
    (h : parse o input = .ok x) : ∀ t ∈ (ParseState.ofString input).rest, o.Admits t.kind := by
  obtain ⟨s', h⟩ := parse_ok.1 h
  exact (Parser.filter_takes (fun _ => ne_eof_of_mem_scan) h).1

/-- A tree stands on the tokens of its text. -/
theorem parse_stand {o : ParserOptions} {input : String} {x : Option Expression}
    (h : parse o input = .ok x) :
    Part.Stand (x.elim [] fun e => [.node (.expression e)]) (solidTokens input) := by
  obtain ⟨s', h⟩ := parse_ok.1 h
  rw [solidTokens_eq]
  refine (Parser.filter_takes (fun _ => ne_eof_of_mem_scan) h).2 ?_
  exact (List.pairwise_append.1 (tokens_before input)).1

/-- The roles of a tree are filled by the tokens of its text, one by one. -/
theorem parse_fits {o : ParserOptions} {input : String} {x : Option Expression}
    (h : parse o input = .ok x) :
    List.Forall₂ Fits (x.elim [] Expression.yield) (solidTokens input) := by
  have hfits := (parse_stand h).fits
  cases x with
  | none => exact hfits
  | some e => simpa using hfits

/-- A tree is read only where there is a token. -/
theorem solidTokens_ne_nil {o : ParserOptions} {input : String} {e : Expression}
    (h : parse o input = .ok (some e)) : solidTokens input ≠ [] := by
  obtain ⟨s', h⟩ := parse_ok.1 h
  obtain ⟨s₁, s₂, hs₁, -, he, -⟩ := Parser.filter_ok h
  have hsuf := hs₁ ▸ Piece.unblank_suffix _
  have hc₁ := (pieces_ofString input).2.of_suffix hsuf
  obtain ⟨p, qs, -, hps, -, hblank, -⟩ := (Parser.expression_spells he hc₁).front
  have hmem : p ∈ (ParseState.ofString input).pieces := hsuf.subset (hps ▸ List.mem_cons_self)
  obtain ⟨t, ht, rfl⟩ := List.mem_map.1 hmem
  obtain ⟨r, hr⟩ := Piece.exists_lexes_of_mem_scan ht
  have hsolid : t.kind.isSolid = true := by
    cases hk : t.kind <;> first | rfl | exact absurd hk hblank | exact absurd hk hr.ne_eof
  rw [solidTokens_eq]
  exact List.ne_nil_of_mem (List.mem_filter.2 ⟨ht, hsolid⟩)

theorem leaves_sublist_of_fits {rs : List Role} {ts : List Token} (h : List.Forall₂ Fits rs ts) :
    ((leavesOf rs).map Leaf.token).Sublist ts := by
  induction h with
  | nil => exact List.Sublist.slnil
  | @cons r t rs ts hfits _ ih =>
    cases r with
    | leaf l =>
      obtain rfl : l.token = t := hfits
      exact ih.cons_cons l.token
    | sign p => exact ih.cons t

end ListQuery.Filter
