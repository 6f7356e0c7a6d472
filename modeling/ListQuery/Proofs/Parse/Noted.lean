/-
What the steps of the parser report. An illegal token is reported when it is first looked at, and
what has only been looked at is taken next, so the run fails at that token and reports nothing more.
Two things may come in between: a blank that strict mode does not allow, and a nesting that goes too
deep. So there is one report, or there are two of which the second is one of these (`Reported`).

A run is followed from state to state, with what has been seen of the tokens that are left: of all
illegal tokens only the first of some tokens may have been seen (`Sees`). Mostly these are the
tokens that are left, with the blank in front or without it; when a word has been looked behind,
they are those behind the word.
-/
import ListQuery.Proofs.Parse.Takes

namespace ListQuery.Filter

/-- Whether a cause is about blanks. -/
def SyntaxCause.isSpacing : SyntaxCause → Bool
  | .manySpaces _ | .noSpace _ | .straySpace _ => true
  | _ => false

/-- Whether a failure can come between an illegal token that has been seen and the failure at that
token. -/
def SyntaxCause.interrupts (o : ParserOptions) (c : SyntaxCause) : Bool :=
  o.strictWhitespace && c.isSpacing || c == .tooDeep o.maxDepth

/-- A failure is reported at its position. There is an earlier report only if it is that of an
illegal token and the failure came in between. -/
inductive Reported (o : ParserOptions) (tokens : List Token) :
    FilterError → List (Report SyntaxCause) → Prop where
  | once (pos : Position) (c : SyntaxCause) : Reported o tokens (.invalidSyntax pos) [⟨pos, c⟩]
  | twice {t : Token} {fault : Fault} (mem : t ∈ tokens) (illegal : t.kind = .illegal fault)
      (pos : Position) {c : SyntaxCause} (interrupts : c.interrupts o = true) :
      Reported o tokens (.invalidSyntax pos) [⟨t.pos, .fault fault⟩, ⟨pos, c⟩]

namespace Token

/-- Without the blank in front, if there is one. -/
def unblank : List Token → List Token
  | [] => []
  | t :: ts => if t.kind = .whitespace then ts else t :: ts

theorem unblank_subset (ts : List Token) : unblank ts ⊆ ts := by
  cases ts with
  | nil => exact List.Subset.refl _
  | cons t ts =>
    rw [unblank]
    split
    · exact List.subset_cons_self _ _
    · exact List.Subset.refl _

theorem map_unblank (ts : List Token) :
    (unblank ts).map Token.piece = Piece.unblank (ts.map Token.piece) := by
  cases ts with
  | nil => rfl
  | cons t ts =>
    rw [unblank, List.map_cons]
    split
    · rename_i h
      exact (Piece.unblank_cons_blank h _).symm
    · rename_i h
      exact (Piece.unblank_cons h _).symm

end Token

namespace ParseState

/-- The token has been reported as illegal, and nothing else has. -/
structure Noted (tokens : List Token) (t : Token) (s : ParseState) : Prop where
  mem : t ∈ tokens
  log : s.log = ⟨1, t.pos.offset + 1⟩
  reports : ∃ fault, t.kind = .illegal fault ∧ s.reports = [⟨t.pos, .fault fault⟩]

/-- Of all illegal tokens of a text only the first of `ts` may have been seen. -/
structure Sees (tokens ts : List Token) (s : ParseState) : Prop where
  rest : s.rest ⊆ tokens
  seen : (s.log = {} ∧ s.reports = []) ∨ ∃ t us, ts = t :: us ∧ s.Noted tokens t

variable {tokens ts : List Token} {s : ParseState}

theorem Noted.isIllegal {t : Token} (h : s.Noted tokens t) : t.kind.isIllegal = true := by
  obtain ⟨fault, hk, -⟩ := h.reports
  rw [hk]
  rfl

theorem see_eq_self {t : Token} (h : t.kind.isIllegal = false) : s.see t = s := by
  have hlog : s.log.see t = (s.log, none) := by
    unfold FaultLog.see
    split
    · rename_i hk
      rw [hk] at h
      cases h
    · rfl
  simp [see, hlog]

theorem Noted.see {t : Token} (h : s.Noted tokens t) : s.see t = s := by
  obtain ⟨fault, hk, -⟩ := h.reports
  have hlog : s.log.see t = (s.log, none) := by
    simp [FaultLog.see, hk, h.log]
  simp [ParseState.see, hlog]

/-- An illegal token is noted when nothing has been, and only then. -/
theorem noted_see {t : Token} (ht : t ∈ tokens) (hk : t.kind.isIllegal = true)
    (h : (s.log = {} ∧ s.reports = []) ∨ s.Noted tokens t) : (s.see t).Noted tokens t := by
  rcases h with ⟨hlog, hreports⟩ | h
  · cases hkind : t.kind with
    | illegal fault =>
      have hsee : s.log.see t = (⟨1, t.pos.offset + 1⟩, some ⟨t.pos, fault⟩) := by
        simp [FaultLog.see, hkind, hlog]
      refine ⟨ht, ?_, fault, hkind, ?_⟩
      · simp [see, hsee]
      · simp [see, hsee, hreports]
    | _ =>
      rw [hkind] at hk
      cases hk
  · rw [h.see]
    exact h

namespace Sees

/-- Nothing seen is nothing seen but this. -/
theorem widen (h : s.Sees tokens []) (ts : List Token) : s.Sees tokens ts := by
  refine ⟨h.rest, .inl ?_⟩
  rcases h.seen with hs | ⟨t, us, hnil, -⟩
  · exact hs
  · cases hnil

/-- What is not illegal has not been noted. -/
theorem clear (h : s.Sees tokens ts) (hts : ∀ t us, ts = t :: us → t.kind.isIllegal = false) :
    s.Sees tokens [] := by
  refine ⟨h.rest, .inl ?_⟩
  rcases h.seen with hs | ⟨t, us, rfl, ht⟩
  · exact hs
  · have hk := hts t us rfl
    rw [ht.isIllegal] at hk
    cases hk

theorem silent (h : s.Sees tokens []) : s.log = {} ∧ s.reports = [] := by
  rcases h.seen with hs | ⟨t, us, hnil, -⟩
  · exact hs
  · cases hnil

/-- The first of the tokens is seen. -/
theorem see (h : s.Sees tokens ts) (hts : ts ⊆ tokens) (p : Position) :
    (s.see (ts.headD (.eof p))).Sees tokens ts := by
  cases hk : (ts.headD (.eof p)).kind.isIllegal with
  | false =>
    rw [see_eq_self hk]
    exact h
  | true =>
    cases ts with
    | nil => cases hk
    | cons t us =>
      refine ⟨h.rest, .inr ⟨t, us, rfl, noted_see (hts List.mem_cons_self) hk ?_⟩⟩
      rcases h.seen with hs | ⟨t', us', heq, ht⟩
      · exact .inl hs
      · obtain ⟨rfl, rfl⟩ := List.cons.inj heq
        exact .inr ht

/-- What has been seen does not depend on where the parser stands. -/
theorem move {s' : ParseState} (h : s.Sees tokens ts) (hrest : s'.rest ⊆ tokens)
    (hlog : s'.log = s.log) (hreports : s'.reports = s.reports) : s'.Sees tokens ts := by
  refine ⟨hrest, ?_⟩
  rw [hlog, hreports]
  rcases h.seen with hs | ⟨t, us, hts, ht⟩
  · exact .inl hs
  · refine .inr ⟨t, us, hts, ht.mem, hlog.trans ht.log, ?_⟩
    rw [hreports]
    exact ht.reports

theorem backTo {saved : ParseState} (h : s.Sees tokens ts) (hs : saved.rest ⊆ tokens) :
    (s.backTo saved).Sees tokens ts :=
  h.move hs rfl rfl

theorem advance (h : s.Sees tokens ts) : s.advance.Sees tokens ts :=
  h.move (fun _ ht => h.rest (List.mem_of_mem_tail ht)) rfl rfl

end Sees

/-! The three ways in which a production starts and ends. -/

/-- No illegal token has been seen. -/
abbrev Clear (tokens : List Token) (s : ParseState) : Prop := s.Sees tokens []

/-- No illegal token has been seen but the one in front. -/
abbrev Tight (tokens : List Token) (s : ParseState) : Prop := s.Sees tokens s.rest

/-- No illegal token has been seen but the one in front or behind the blank in front. -/
abbrev Ready (tokens : List Token) (s : ParseState) : Prop := s.Sees tokens (Token.unblank s.rest)

theorem unblank_rest_of_blank (h : s.head.kind = .whitespace) :
    Token.unblank s.rest = s.rest.tail := by
  unfold head at h
  cases hr : s.rest with
  | nil => rfl
  | cons t ts =>
    rw [hr] at h
    exact if_pos h

theorem unblank_rest_of_ne (h : s.head.kind ≠ .whitespace) : Token.unblank s.rest = s.rest := by
  unfold head at h
  cases hr : s.rest with
  | nil => rfl
  | cons t ts =>
    rw [hr] at h
    exact if_neg h

theorem following_eq : s.following = (Token.unblank s.rest.tail).headD (.eof s.finish) := by
  have hafter : s.advance.rest = s.rest.tail := rfl
  unfold following
  dsimp only
  split
  · rename_i h
    rw [← hafter, unblank_rest_of_blank h]
    rfl
  · rename_i h
    rw [← hafter, unblank_rest_of_ne h]
    rfl

theorem Clear.tight (h : s.Clear tokens) : s.Tight tokens := h.widen _

theorem Clear.ready (h : s.Clear tokens) : s.Ready tokens := h.widen _

theorem Tight.see (h : s.Tight tokens) : (s.see s.head).Tight tokens := Sees.see h h.rest s.finish

theorem Tight.clear (h : s.Tight tokens) (hk : s.head.kind.isIllegal = false) :
    s.Clear tokens := by
  refine Sees.clear h fun t us hr => ?_
  rw [head, hr] at hk
  exact hk

/-- A token that is illegal is no blank. -/
theorem Tight.ready (h : s.Tight tokens) : s.Ready tokens := by
  by_cases hk : s.head.kind = .whitespace
  · refine (Tight.clear h ?_).ready
    rw [hk]
    rfl
  · rw [Ready, unblank_rest_of_ne hk]
    exact h

theorem Ready.tight (h : s.Ready tokens) (hk : s.head.kind ≠ .whitespace) : s.Tight tokens := by
  rw [Ready, unblank_rest_of_ne hk] at h
  exact h

end ParseState

open ParseState Piece

namespace Parser

variable {α β : Type} {o : ParserOptions} {tokens ts : List Token} {s : ParseState}

/-- What a run comes to: a value and a state as said, or a failure that is reported as it should. -/
inductive Outcome (o : ParserOptions) (tokens : List Token) (Q : α → ParseState → Prop) :
    EStateM.Result FilterError ParseState α → Prop where
  | value {a : α} {s : ParseState} (h : Q a s) : Outcome o tokens Q (.ok a s)
  | failed {e : FilterError} {s : ParseState} (h : Reported o tokens e s.reports) :
    Outcome o tokens Q (.error e s)

/-- A run from a state ends in a state as said, or it fails and reports the failure. -/
def Finishes (o : ParserOptions) (tokens : List Token) (p : Parser α) (s : ParseState)
    (Q : α → ParseState → Prop) : Prop :=
  Outcome o tokens Q (p s)

variable {Q : α → ParseState → Prop} {R : β → ParseState → Prop} {p : Parser α}

theorem Finishes.bind {f : α → Parser β} (hp : Finishes o tokens p s Q)
    (hf : ∀ a s', Q a s' → Finishes o tokens (f a) s' R) : Finishes o tokens (p >>= f) s R := by
  change Outcome o tokens R (EStateM.bind p f s)
  unfold EStateM.bind
  unfold Finishes at hp
  generalize p s = result at hp ⊢
  cases hp with
  | value h => exact hf _ _ h
  | failed h => exact .failed h

theorem Finishes.mono {P : α → ParseState → Prop} (h : Finishes o tokens p s Q)
    (hP : ∀ a s', Q a s' → P a s') : Finishes o tokens p s P := by
  unfold Finishes at *
  generalize p s = result at h ⊢
  cases h with
  | value hq => exact .value (hP _ _ hq)
  | failed hr => exact .failed hr

theorem finishes_pure {a : α} (h : Q a s) : Finishes o tokens (pure a) s Q := .value h

/-- A branch that a test chooses. -/
theorem finishes_ite {c : Prop} [Decidable c] {q : Parser α} (hp : c → Finishes o tokens p s Q)
    (hq : ¬c → Finishes o tokens q s Q) : Finishes o tokens (if c then p else q) s Q := by
  split
  · exact hp ‹_›
  · exact hq ‹_›

/-- A failure where no illegal token has been seen. -/
theorem finishes_fail (h : s.Clear tokens) (pos : Position) (c : SyntaxCause) :
    Finishes o tokens (fail pos c) s Q := by
  refine .failed ?_
  rw [h.silent.2]
  exact .once pos c

/-- A failure that may come before the one at an illegal token. -/
theorem finishes_interrupted (h : s.Sees tokens ts) (pos : Position) {c : SyntaxCause}
    (hc : c.interrupts o = true) : Finishes o tokens (fail pos c) s Q := by
  refine .failed ?_
  rcases h.seen with ⟨-, hreports⟩ | ⟨t, us, -, ht⟩
  · rw [hreports]
    exact .once pos c
  · obtain ⟨fault, hk, hreports⟩ := ht.reports
    rw [hreports]
    exact .twice ht.mem hk pos hc

theorem interrupts_of_isSpacing (hstrict : o.strictWhitespace = true) {c : SyntaxCause}
    (hc : c.isSpacing = true) : c.interrupts o = true := by
  simp [SyntaxCause.interrupts, hstrict, hc]

theorem finishes_tooDeep (h : s.Tight tokens) : Finishes o tokens (tooDeep o) s Q :=
  finishes_interrupted h _ (by simp [SyntaxCause.interrupts])

/-! ## Tokens -/

theorem finishes_peek (h : s.Tight tokens) : Finishes o tokens peek s fun t s' =>
    t = s'.head ∧ s'.rest = s.rest ∧ s'.Tight tokens :=
  .value ⟨rfl, rfl, h.see⟩

theorem finishes_peekKind (h : s.Tight tokens) : Finishes o tokens peekKind s fun k s' =>
    k = s'.head.kind ∧ s'.rest = s.rest ∧ s'.Tight tokens :=
  .value ⟨rfl, rfl, h.see⟩

/-- A token has been taken; if it is illegal, it has been noted. -/
structure Taken (tokens : List Token) (t : Token) (s : ParseState) : Prop where
  sees : s.Sees tokens [t]
  noted : t.kind.isIllegal = true → s.Noted tokens t

theorem Taken.clear {t : Token} (h : Taken tokens t s) (hk : t.kind.isIllegal = false) :
    s.Clear tokens := by
  refine h.sees.clear fun u us heq => ?_
  obtain ⟨rfl, -⟩ := List.cons.inj heq
  exact hk

theorem finishes_next (h : s.Tight tokens) : Finishes o tokens next s fun t s' =>
    t = s.head ∧ Taken tokens t s' := by
  refine .value ⟨rfl, ?_⟩
  cases hk : s.head.kind.isIllegal with
  | false =>
    have hclear : (s.see s.head).Clear tokens := by
      rw [see_eq_self hk]
      exact h.clear hk
    exact ⟨hclear.advance.widen _, fun hk' => by rw [hk] at hk'; cases hk'⟩
  | true =>
    have hrest : s.rest = s.head :: s.rest.tail := rest_of_head fun he => by
      rw [he] at hk
      cases hk
    have hmem : s.head ∈ tokens := h.rest (hrest ▸ List.mem_cons_self)
    have hseen : (s.see s.head).Noted tokens s.head := by
      refine noted_see hmem hk ?_
      rcases h.seen with hs | ⟨t, us, hr, ht⟩
      · exact .inl hs
      · obtain ⟨rfl, -⟩ := List.cons.inj (hrest.symm.trans hr)
        exact .inr ht
    have hnoted : (s.see s.head).advance.Noted tokens s.head :=
      ⟨hmem, hseen.log, hseen.reports⟩
    exact ⟨⟨h.see.advance.rest, .inr ⟨_, [], rfl, hnoted⟩⟩, fun _ => hnoted⟩

/-- A token that is not illegal is taken without being noted. -/
theorem finishes_next_past (h : s.Sees tokens ts) (hk : s.head.kind.isIllegal = false) :
    Finishes o tokens next s fun t s' =>
      t = s.head ∧ s'.rest = s.rest.tail ∧ s'.Sees tokens ts := by
  refine .value ⟨rfl, rfl, ?_⟩
  rw [see_eq_self hk]
  exact h.advance

theorem finishes_unexpected {t : Token} (h : Taken tokens t s) (what : String) :
    Finishes o tokens (unexpected t what) s Q := by
  cases hk : t.kind.isIllegal with
  | false =>
    have hfail : (unexpected t what : Parser α) s = fail t.pos (.expected what t) s := by
      simp [unexpected, hk]
    rw [Finishes, hfail]
    exact finishes_fail (h.clear hk) _ _
  | true =>
    have herror : (unexpected t what : Parser α) s = .error (.invalidSyntax t.pos) s := by
      simp [unexpected, hk]
    obtain ⟨fault, -, hreports⟩ := (h.noted hk).reports
    rw [Finishes, herror]
    refine .failed ?_
    rw [hreports]
    exact .once t.pos _

theorem finishes_expect {kind : Kind} (hkind : kind.isIllegal = false) (what : String)
    (h : s.Tight tokens) : Finishes o tokens (expect kind what) s fun _ s' => s'.Clear tokens := by
  refine (finishes_next h).bind fun t s₁ hpost => ?_
  obtain ⟨-, ht⟩ := hpost
  refine finishes_ite (fun hk => finishes_pure (ht.clear ?_)) fun _ => finishes_unexpected ht what
  rw [hk]
  exact hkind

theorem finishes_leaf {t : Token} (h : Taken tokens t s) (what : String) :
    Finishes o tokens (leaf t what) s fun _ s' => s'.Clear tokens := by
  unfold leaf
  split
  · rename_i l hl
    simp only [Leaf.ofToken?, Option.dite_none_right_eq_some] at hl
    obtain ⟨hleaf, -⟩ := hl
    exact finishes_pure (h.clear (Kind.isIllegal_of_isLeaf hleaf))
  · exact finishes_unexpected h what

theorem finishes_eat {kind : Kind} (hkind : kind.isIllegal = false) (h : s.Tight tokens) :
    Finishes o tokens (eat kind) s fun x s' =>
      x.elim (s'.Tight tokens) fun _ => s'.Clear tokens := by
  unfold Finishes eat
  split
  · rename_i hk
    have hillegal : s.head.kind.isIllegal = false := by rw [hk]; exact hkind
    refine .value ?_
    rw [see_eq_self hillegal]
    exact (h.clear hillegal).advance
  · exact .value h.see

/-- A blank is skipped, whatever has been seen behind what then is in front. -/
theorem finishes_skipBlank_past (h : s.Sees tokens ts)
    (hk : ∀ t us, Token.unblank s.rest = t :: us → t.kind.isIllegal = false) :
    Finishes o tokens skipBlank s fun _ s' =>
      s'.rest = Token.unblank s.rest ∧ s'.Sees tokens ts := by
  unfold Finishes skipBlank eat
  split
  · rename_i hblank
    have hillegal : s.head.kind.isIllegal = false := by rw [hblank]; rfl
    refine .value ⟨(unblank_rest_of_blank hblank).symm, ?_⟩
    rw [see_eq_self hillegal]
    exact h.advance
  · rename_i hne
    rw [unblank_rest_of_ne hne] at hk ⊢
    have hillegal : s.head.kind.isIllegal = false := by
      unfold head
      cases hr : s.rest with
      | nil => rfl
      | cons t us => exact hk t us hr
    refine .value ⟨rfl, ?_⟩
    rw [see_eq_self hillegal]
    exact h

theorem finishes_skipBlank (h : s.Ready tokens) : Finishes o tokens skipBlank s fun _ s' =>
    s'.rest = Token.unblank s.rest ∧ s'.Tight tokens := by
  by_cases hblank : s.head.kind = .whitespace
  · have hillegal : s.head.kind.isIllegal = false := by rw [hblank]; rfl
    have hrest := unblank_rest_of_blank hblank
    rw [Ready, hrest] at h
    unfold Finishes skipBlank eat
    rw [if_pos hblank, see_eq_self hillegal, hrest]
    exact .value ⟨rfl, h.advance⟩
  · have htight := h.tight hblank
    unfold Finishes skipBlank eat
    rw [if_neg hblank, unblank_rest_of_ne hblank]
    exact .value ⟨rfl, htight.see⟩

theorem finishes_innerBlank (place : String) (h : s.Ready tokens) :
    Finishes o tokens (innerBlank o place) s fun _ s' => s'.Tight tokens := by
  refine (finishes_skipBlank h).bind fun x s₁ hpost => ?_
  obtain ⟨-, hs₁⟩ := hpost
  split
  · refine finishes_ite (fun hstrict => ?_) fun _ => finishes_pure hs₁
    exact finishes_interrupted hs₁ _ (interrupts_of_isSpacing hstrict rfl)
  · exact finishes_pure hs₁

/-- The check of a blank may look at the token in front. -/
theorem finishes_requireSpace (blank : Option Token) (place : String) (h : s.Sees tokens ts)
    (hsee : (s.see s.head).Sees tokens ts) :
    Finishes o tokens (requireSpace o blank place) s fun _ s' => s' = s := by
  unfold requireSpace
  refine finishes_ite (fun hstrict => ?_) fun _ => finishes_pure rfl
  split
  · refine finishes_ite (fun _ => finishes_pure rfl) fun _ => ?_
    exact finishes_interrupted h _ (interrupts_of_isSpacing hstrict rfl)
  · have hpeek : Finishes o tokens peek s fun _ s' => s'.Sees tokens ts := .value hsee
    refine hpeek.bind fun t s₁ hs₁ => ?_
    exact finishes_interrupted hs₁ _ (interrupts_of_isSpacing hstrict rfl)

theorem isIllegal_of_endsName {k : Kind} (h : endsName k = true) : k.isIllegal = false := by
  cases k <;> first | rfl | cases h

/-- The token behind the one in front is seen. If it shows that the word is a name, it is not
illegal. -/
theorem finishes_keywordIsOperator (h : s.Sees tokens (Token.unblank s.rest.tail)) :
    Finishes o tokens keywordIsOperator s fun b s' =>
      b = !endsName s.following.kind ∧ s'.rest = s.rest ∧
        s'.Sees tokens (Token.unblank s.rest.tail) ∧ (b = false → s'.Clear tokens) := by
  have hsub : Token.unblank s.rest.tail ⊆ tokens := fun t ht =>
    h.rest (List.mem_of_mem_tail (Token.unblank_subset _ ht))
  have hsees : (s.see s.following).Sees tokens (Token.unblank s.rest.tail) := by
    rw [following_eq]
    exact h.see hsub s.finish
  refine .value ⟨rfl, rfl, hsees, fun hb => hsees.clear fun t us hr => ?_⟩
  have hname : endsName s.following.kind = true := by simpa using hb
  rw [following_eq, hr] at hname
  exact isIllegal_of_endsName hname

theorem head_kind_congr {s' : ParseState} (h : s'.rest = s.rest) : s'.head.kind = s.head.kind := by
  rw [head_kind, head_kind, ParseState.pieces, h, ParseState.pieces]

theorem finishes_get : Finishes o tokens get s fun a s' => a = s ∧ s' = s := .value ⟨rfl, rfl⟩

theorem finishes_restore {saved : ParseState} (h : s.Sees tokens ts) (hs : saved.rest ⊆ tokens) :
    Finishes o tokens (restore saved) s fun _ s' =>
      s'.rest = saved.rest ∧ s'.Sees tokens ts :=
  .value ⟨rfl, h.backTo hs⟩

/-- A span is taken note of, and nothing changes. -/
theorem finishes_spanned (start : Position) (f : Span → α) (h : ∀ x, Q (f x) s) :
    Finishes o tokens (do return f (← spanFrom start)) s Q :=
  .value (h _)

/-! ## Repetition -/

/-- The run that led to a state stays known. -/
theorem Finishes.run (h : Finishes o tokens p s Q) :
    Finishes o tokens p s fun a s' => p s = .ok a s' ∧ Q a s' := by
  unfold Finishes at *
  generalize p s = result at h ⊢
  cases h with
  | value hq => exact .value ⟨rfl, hq⟩
  | failed hr => exact .failed hr

/-- What a step keeps while it gives something holds until it gives nothing. The tokens that are
left bound the number of steps, so it does not stop before. -/
theorem finishes_many {step : Parser (Option α)} {P E : ParseState → Prop}
    (hstep : ∀ s, P s → Finishes o tokens step s fun x s' => x.elim (E s') fun _ => P s')
    (hless : ∀ {s a s'}, step s = .ok (some a) s' → s'.rest.length < s.rest.length) (h : P s) :
    Finishes o tokens (many step) s fun _ s' => E s' := by
  have run : ∀ (fuel : Nat) (s : ParseState), s.rest.length < fuel → P s →
      Finishes o tokens (repeatStep step fuel) s fun _ s' => E s' := by
    intro fuel
    induction fuel with
    | zero => intro s hf; omega
    | succ fuel ih =>
      intro s hf hs
      rw [repeatStep]
      refine (hstep s hs).run.bind fun x s₁ hpost => ?_
      obtain ⟨hrun, hs₁⟩ := hpost
      cases x with
      | none => exact finishes_pure hs₁
      | some a =>
        have hlt := hless hrun
        exact (ih s₁ (by omega) hs₁).bind fun as s₂ hs₂ => finishes_pure hs₂
  exact run _ s (Nat.lt_succ_self _) h

section Items

variable {b : Brackets} {item : Parser α}

theorem finishes_itemsFrom (hb : b.close.isIllegal = false)
    (hitem : ∀ {s}, s.Tight tokens → Finishes o tokens item s fun _ s' => s'.Ready tokens)
    (fuel : Nat) (h : s.Tight tokens) :
    Finishes o tokens (itemsFrom o b item fuel) s fun _ s' => s'.Tight tokens := by
  induction fuel generalizing s with
  | zero => exact finishes_pure h
  | succ fuel ih =>
    refine (hitem h).bind fun a s₁ hs₁ => ?_
    refine (finishes_innerBlank b.place hs₁).bind fun _ s₂ hs₂ => ?_
    refine (finishes_next hs₂).bind fun t s₃ hpost => ?_
    obtain ⟨-, ht⟩ := hpost
    refine finishes_ite (fun hk => ?_) fun _ => finishes_ite (fun hk => ?_) fun _ => ?_
    · have hclear : s₃.Clear tokens := ht.clear (by rw [hk]; rfl)
      refine (finishes_innerBlank b.place hclear.ready).bind fun _ s₄ hs₄ => ?_
      exact (ih hs₄).bind fun as s₅ hs₅ => finishes_pure hs₅
    · exact finishes_pure (ht.clear (by rw [hk]; exact hb)).tight
    · exact finishes_unexpected ht b.expected

theorem finishes_delimited (hb : b.close.isIllegal = false)
    (hitem : ∀ {s}, s.Tight tokens → Finishes o tokens item s fun _ s' => s'.Ready tokens)
    (h : s.Clear tokens) :
    Finishes o tokens (delimited o b item) s fun _ s' => s'.Tight tokens := by
  refine (finishes_innerBlank b.place h.ready).bind fun _ s₁ hs₁ => ?_
  refine (finishes_eat hb hs₁).bind fun x s₂ hs₂ => ?_
  cases x with
  | none => exact finishes_itemsFrom hb hitem _ hs₂
  | some t => exact finishes_pure hs₂.tight

end Items

end Parser

end ListQuery.Filter
