/-
What a failure to read a filter reports. Each production starts where no illegal token has been seen
but the one in front (`Tight`), and ends so, a blank in front apart (`Ready`). Only two productions
leave more behind: a factor ends where no `OR` goes on with it (`Settled`), since otherwise the
token behind the `OR` would have been seen, and a sequence may end before an `AND` that has been
looked behind (`Ahead`). Main statement: `parse_reports`.
-/
import ListQuery.Proofs.Parse.Noted

namespace ListQuery.Filter

open ParseState Piece

namespace Parser

variable {α β : Type} {o : ParserOptions} {tokens ts : List Token} {s : ParseState}
  {Q : α → ParseState → Prop} {p : Parser α}

/-- The productions one level down finish as they should. -/
structure Inner.Report (o : ParserOptions) (tokens : List Token) (inner : Inner) : Prop where
  expression : ∀ {s}, s.Tight tokens →
    Finishes o tokens inner.expression s fun _ s' => s'.Ready tokens
  comparable : ∀ {s}, s.Tight tokens →
    Finishes o tokens inner.comparable s fun _ s' => s'.Tight tokens
  read : inner.Read o

variable {inner : Inner} (hi : inner.Report o tokens)

include hi

theorem composite_finishes (h : s.Tight tokens) :
    Finishes o tokens (composite inner) s fun _ s' => s'.Ready tokens := by
  refine (finishes_expect rfl _ h).bind fun _ s₁ hs₁ => ?_
  refine (finishes_skipBlank hs₁.ready).bind fun _ s₂ hpost => ?_
  obtain ⟨-, hs₂⟩ := hpost
  refine (hi.expression hs₂).bind fun e s₃ hs₃ => ?_
  refine (finishes_skipBlank hs₃).bind fun _ s₄ hpost => ?_
  obtain ⟨-, hs₄⟩ := hpost
  refine (finishes_expect rfl _ hs₄).bind fun _ s₅ hs₅ => ?_
  exact finishes_spanned _ _ fun _ => hs₅.ready

theorem arg_finishes (h : s.Tight tokens) :
    Finishes o tokens (arg inner) s fun _ s' => s'.Ready tokens := by
  refine (finishes_peekKind h).bind fun k s₁ hpost => ?_
  obtain ⟨-, -, hs₁⟩ := hpost
  refine finishes_ite (fun _ => ?_) fun _ => ?_
  · exact (composite_finishes hi hs₁).bind fun _ s₂ hs₂ => finishes_pure hs₂
  · exact (hi.comparable hs₁).bind fun _ s₂ hs₂ => finishes_pure hs₂.ready

omit hi in
theorem dottedLeaf_finishes (h : s.Tight tokens) : Finishes o tokens dottedLeaf s fun x s' =>
    x.elim (s'.Tight tokens) fun _ => s'.Tight tokens := by
  refine (finishes_peekKind h).bind fun k s₁ hpost => ?_
  obtain ⟨hk, -, hs₁⟩ := hpost
  refine finishes_ite (fun hdot => ?_) fun _ => finishes_pure hs₁
  have hillegal : s₁.head.kind.isIllegal = false := by rw [← hk, hdot]; rfl
  refine (finishes_next_past (hs₁.clear hillegal) hillegal).bind fun _ s₂ hpost => ?_
  obtain ⟨-, -, hs₂⟩ := hpost
  refine (finishes_next (Clear.tight hs₂)).bind fun t s₃ hpost => ?_
  obtain ⟨-, ht⟩ := hpost
  exact (finishes_leaf ht _).bind fun l s₄ hs₄ => finishes_pure hs₄.tight

omit hi in
theorem checkName_finishes (path : List Leaf) (what : String) (h : s.Clear tokens) :
    Finishes o tokens (checkName path what) s fun _ s' => s'.Clear tokens := by
  unfold checkName
  split
  · exact finishes_fail h _ _
  · exact finishes_pure h

theorem call_finishes (name : List Leaf) (start : Position) (h : s.Clear tokens) :
    Finishes o tokens (call o inner name start) s fun _ s' => s'.Tight tokens := by
  refine (finishes_expect rfl _ h.tight).bind fun _ s₁ hs₁ => ?_
  refine (finishes_delimited rfl (arg_finishes hi) hs₁).bind fun _ s₂ hs₂ => ?_
  exact finishes_spanned _ _ fun _ => hs₂

theorem arrayLiteral_finishes (h : s.Tight tokens) :
    Finishes o tokens (arrayLiteral o inner) s fun _ s' => s'.Tight tokens := by
  refine (finishes_expect rfl _ h).bind fun _ s₁ hs₁ => ?_
  have hitem {s : ParseState} (hs : s.Tight tokens) :
      Finishes o tokens inner.comparable s fun _ s' => s'.Ready tokens :=
    (hi.comparable hs).mono fun _ _ hs' => hs'.ready
  refine (finishes_delimited rfl hitem hs₁).bind fun _ s₂ hs₂ => ?_
  exact finishes_spanned _ _ fun _ => hs₂

theorem structEntry_finishes (h : s.Tight tokens) :
    Finishes o tokens (structEntry o inner) s fun _ s' => s'.Ready tokens := by
  refine (finishes_next h).bind fun t s₁ hpost => ?_
  obtain ⟨-, ht⟩ := hpost
  refine (finishes_leaf ht _).bind fun _ s₂ hs₂ => ?_
  refine (finishes_innerBlank _ hs₂.ready).bind fun _ s₃ hs₃ => ?_
  refine (finishes_expect rfl _ hs₃).bind fun _ s₄ hs₄ => ?_
  refine (finishes_innerBlank _ hs₄.ready).bind fun _ s₅ hs₅ => ?_
  exact (hi.comparable hs₅).bind fun _ s₆ hs₆ => finishes_pure hs₆.ready

theorem structLiteral_finishes (name : List Leaf) (start : Position) (h : s.Tight tokens) :
    Finishes o tokens (structLiteral o inner name start) s fun _ s' => s'.Tight tokens := by
  refine (finishes_expect rfl _ h).bind fun _ s₁ hs₁ => ?_
  refine (finishes_delimited rfl (structEntry_finishes hi) hs₁).bind fun _ s₂ hs₂ => ?_
  exact finishes_spanned _ _ fun _ => hs₂

theorem nameRun_finishes (h : s.Tight tokens) :
    Finishes o tokens (nameRun o inner) s fun _ s' => s'.Tight tokens := by
  refine (finishes_next h).bind fun first s₁ hpost => ?_
  obtain ⟨-, hfirst⟩ := hpost
  refine (finishes_leaf hfirst _).bind fun value s₂ hs₂ => ?_
  refine (finishes_many (fun s hs => dottedLeaf_finishes hs) dottedLeaf_less hs₂.tight).bind
    fun fields s₃ hs₃ => ?_
  refine (finishes_peekKind hs₃).bind fun k s₄ hpost => ?_
  obtain ⟨hk, -, hs₄⟩ := hpost
  have hmember : Finishes o tokens
      (do return Comparable.member ⟨← spanFrom first.pos, value, fields⟩) s₄
      fun _ s' => s'.Tight tokens := finishes_spanned _ _ fun _ => hs₄
  split
  · have hclear : s₄.Clear tokens := hs₄.clear (by rw [← hk]; rfl)
    refine (checkName_finishes _ _ hclear).bind fun _ s₅ hs₅ => ?_
    exact (call_finishes hi _ _ hs₅).bind fun _ s₆ hs₆ => finishes_pure hs₆
  · refine finishes_ite (fun _ => ?_) fun _ => hmember
    have hclear : s₄.Clear tokens := hs₄.clear (by rw [← hk]; rfl)
    refine (checkName_finishes _ _ hclear).bind fun _ s₅ hs₅ => ?_
    exact (structLiteral_finishes hi _ _ hs₅.tight).bind fun _ s₆ hs₆ => finishes_pure hs₆
  · exact hmember

theorem comparableBody_finishes (h : s.Tight tokens) :
    Finishes o tokens (comparableBody o inner) s fun _ s' => s'.Tight tokens := by
  refine (finishes_peek h).bind fun t s₁ hpost => ?_
  obtain ⟨ht, -, hs₁⟩ := hpost
  refine finishes_ite (fun _ => ?_) fun _ => finishes_ite (fun _ => ?_) fun _ =>
    finishes_ite (fun _ => nameRun_finishes hi hs₁) fun _ => ?_
  · exact (arrayLiteral_finishes hi hs₁).bind fun _ s₂ hs₂ => finishes_pure hs₂
  · exact (structLiteral_finishes hi _ _ hs₁).bind fun _ s₂ hs₂ => finishes_pure hs₂
  · refine (finishes_next hs₁).bind fun t' s₂ hpost => ?_
    obtain ⟨ht', hs₂⟩ := hpost
    rw [ht', ← ht] at hs₂
    exact finishes_unexpected hs₂ _

omit hi in
/-- A comparator in front is not illegal, and behind it the token may have been seen. -/
theorem comparator?_finishes {t : Token} (ht : t = s.head) (h : s.Tight tokens) :
    Finishes o tokens (comparator? o t) s fun c s' => s'.rest = s.rest ∧
      c.elim (s'.Tight tokens) fun _ =>
        s'.head.kind.isIllegal = false ∧ s'.Sees tokens (Token.unblank s'.rest.tail) := by
  subst ht
  unfold comparator?
  refine finishes_ite (fun hk => ?_) fun hk => ?_
  · have hclear : s.Clear tokens := h.clear (by rw [hk]; rfl)
    refine finishes_ite (fun _ => ?_) fun _ => finishes_pure ⟨rfl, h⟩
    refine (finishes_keywordIsOperator (hclear.widen _)).bind fun b s₁ hpost => ?_
    obtain ⟨-, hrest, hs₁, hname⟩ := hpost
    refine finishes_ite (fun _ => ?_) fun hb => ?_
    · refine finishes_pure ⟨hrest, ?_, by rw [hrest]; exact hs₁⟩
      rw [head_kind_congr hrest, hk]
      rfl
    · exact finishes_pure ⟨hrest, (hname (by simpa using hb)).tight⟩
  · cases hc : Comparator.ofKind? s.head.kind with
    | none => exact finishes_pure ⟨rfl, h⟩
    | some c =>
      have hillegal : s.head.kind.isIllegal = false := by
        cases hkind : s.head.kind <;> rw [hkind] at hc <;> first | rfl | cases hc
      exact finishes_pure ⟨rfl, hillegal, (h.clear hillegal).widen _⟩

theorem restriction_finishes (h : s.Tight tokens) :
    Finishes o tokens (restriction o inner) s fun _ s' => s'.Ready tokens := by
  refine (finishes_peek h).bind fun _ s₁ hpost => ?_
  obtain ⟨-, -, hs₁⟩ := hpost
  refine (hi.comparable hs₁).bind fun c s₂ hs₂ => ?_
  refine finishes_get.bind fun saved s' hpost => ?_
  obtain ⟨hsaved, hs'⟩ := hpost
  subst hs' hsaved
  refine (finishes_skipBlank hs₂.ready).bind fun _ s₃ hpost => ?_
  obtain ⟨hrest₃, hs₃⟩ := hpost
  refine (finishes_peek hs₃).bind fun t s₄ hpost => ?_
  obtain ⟨ht, hrest₄, hs₄⟩ := hpost
  refine (comparator?_finishes ht hs₄).bind fun c s₅ hpost => ?_
  obtain ⟨hrest₅, hs₅⟩ := hpost
  cases c with
  | some c =>
    obtain ⟨hillegal, hs₅⟩ := hs₅
    refine (finishes_next_past hs₅ hillegal).bind fun _ s₆ hpost => ?_
    obtain ⟨-, hrest₆, hs₆⟩ := hpost
    have hready : s₆.Ready tokens := by
      rw [Ready, hrest₆]
      exact hs₆
    refine (finishes_skipBlank hready).bind fun _ s₇ hpost => ?_
    obtain ⟨-, hs₇⟩ := hpost
    refine (arg_finishes hi hs₇).bind fun _ s₈ hs₈ => ?_
    exact finishes_spanned _ _ fun _ => hs₈
  | none =>
    refine (finishes_restore hs₅ hs₂.rest).bind fun _ s₆ hpost => ?_
    obtain ⟨hrest₆, hs₆⟩ := hpost
    refine finishes_spanned _ _ fun _ => ?_
    rw [Ready, hrest₆, ← hrest₃, ← hrest₄, ← hrest₅]
    exact hs₆

omit hi in
theorem unary_finishes (h : s.Tight tokens) :
    Finishes o tokens (unary o) s fun _ s' => s'.Tight tokens := by
  refine (finishes_peekKind h).bind fun k s₁ hpost => ?_
  obtain ⟨hk, -, hs₁⟩ := hpost
  split
  · have hillegal : s₁.head.kind.isIllegal = false := by rw [← hk]; rfl
    have hclear := hs₁.clear hillegal
    refine (finishes_keywordIsOperator (hclear.widen _)).bind fun b s₂ hpost => ?_
    obtain ⟨-, hrest, hs₂, hname⟩ := hpost
    refine finishes_ite (fun _ => ?_) fun hb => ?_
    · have hillegal₂ : s₂.head.kind.isIllegal = false := by
        rw [head_kind_congr hrest]
        exact hillegal
      refine (finishes_next_past hs₂ hillegal₂).bind fun _ s₃ hpost => ?_
      obtain ⟨-, hrest₃, hs₃⟩ := hpost
      have hready : s₃.Ready tokens := by
        rw [Ready, hrest₃, hrest]
        exact hs₃
      refine (finishes_skipBlank hready).bind fun _ s₄ hpost => ?_
      obtain ⟨-, hs₄⟩ := hpost
      refine (finishes_requireSpace _ _ hs₄ hs₄.see).bind fun _ s₅ hs₅ => ?_
      subst hs₅
      exact finishes_pure hs₄
    · exact finishes_pure (hname (by simpa using hb)).tight
  · have hillegal : s₁.head.kind.isIllegal = false := by rw [← hk]; rfl
    refine (finishes_next_past (hs₁.clear hillegal) hillegal).bind fun _ s₂ hpost => ?_
    obtain ⟨-, -, hs₂⟩ := hpost
    exact (finishes_innerBlank _ (Clear.ready hs₂)).bind fun _ s₃ hs₃ => finishes_pure hs₃
  · exact finishes_pure hs₁

theorem simple_finishes (h : s.Tight tokens) :
    Finishes o tokens (simple o inner) s fun _ s' => s'.Ready tokens := by
  refine (finishes_peekKind h).bind fun k s₁ hpost => ?_
  obtain ⟨-, -, hs₁⟩ := hpost
  refine finishes_ite (fun _ => ?_) fun _ => ?_
  · exact (composite_finishes hi hs₁).bind fun _ s₂ hs₂ => finishes_pure hs₂
  · exact (restriction_finishes hi hs₁).bind fun _ s₂ hs₂ => finishes_pure hs₂

theorem term_finishes (h : s.Tight tokens) :
    Finishes o tokens (term o inner) s fun _ s' => s'.Ready tokens := by
  refine (finishes_peek h).bind fun _ s₁ hpost => ?_
  obtain ⟨-, -, hs₁⟩ := hpost
  refine (unary_finishes hs₁).bind fun _ s₂ hs₂ => ?_
  refine (simple_finishes hi hs₂).bind fun _ s₃ hs₃ => ?_
  exact finishes_spanned _ _ fun _ => hs₃

omit hi

/-- A word stands in front, a blank before it skipped, and of what follows it the first token may
have been seen. -/
def Ahead (tokens : List Token) (word : Kind) (s : ParseState) : Prop :=
  headKind (unblank s.pieces) = word ∧
    s.Sees tokens (Token.unblank (Token.unblank s.rest).tail)

theorem pieces_of_unblank {s' : ParseState} (h : s'.rest = Token.unblank s.rest) :
    s'.pieces = unblank s.pieces := by
  rw [ParseState.pieces, h, Token.map_unblank, ParseState.pieces]

/-- The blank before a word is skipped and the word is seen. -/
theorem wordInFront_finishes {word : Kind} (hword : word.isIllegal = false)
    (h : s.Ready tokens ∨ Ahead tokens word s) :
    Finishes o tokens skipBlank s fun _ s' => s'.rest = Token.unblank s.rest ∧
      (s'.Tight tokens ∨ s'.head.kind = word ∧ s'.Sees tokens (Token.unblank s'.rest.tail)) := by
  rcases h with h | ⟨hk, h⟩
  · exact (finishes_skipBlank h).mono fun _ _ hs' => ⟨hs'.1, .inl hs'.2⟩
  · have hfront (t : Token) (us : List Token) (hr : Token.unblank s.rest = t :: us) :
        t.kind.isIllegal = false := by
      have hpieces : unblank s.pieces = t.piece :: us.map Token.piece := by
        rw [ParseState.pieces, ← Token.map_unblank, hr, List.map_cons]
      rw [hpieces, headKind_cons] at hk
      have hkind : t.kind = word := hk
      rw [hkind]
      exact hword
    refine (finishes_skipBlank_past h hfront).mono fun _ s' hpost => ?_
    obtain ⟨hrest, hs'⟩ := hpost
    refine ⟨hrest, .inr ⟨?_, ?_⟩⟩
    · rw [head_kind, pieces_of_unblank hrest]
      exact hk
    · rw [hrest]
      exact hs'

/-- After an operator word with its blanks no illegal token has been seen but the one in front.
Where the word does not come, the parser is as it was, and knows that it does not come. -/
theorem joiner_finishes {word : Kind} (hword : word.isIllegal = false) (before after : String)
    (h : s.Ready tokens ∨ Ahead tokens word s) :
    Finishes o tokens (joiner o word before after) s fun x s' =>
      x.elim (s'.Ready tokens ∧ isOperator word (unblank s'.pieces) = false)
        fun _ => s'.Tight tokens := by
  have hrest : s.rest ⊆ tokens := by
    rcases h with h | ⟨-, h⟩
    · exact h.rest
    · exact h.rest
  refine finishes_get.bind fun saved s' hpost => ?_
  obtain ⟨hsaved, hs'⟩ := hpost
  subst hs' hsaved
  refine (wordInFront_finishes hword h).bind fun blank s₁ hpost => ?_
  obtain ⟨hrest₁, hs₁⟩ := hpost
  have hpieces₁ := pieces_of_unblank hrest₁
  -- going back leaves the front of the text as it was before the blank was skipped
  have hback {s₂ : ParseState} (hs₂ : s₂.Sees tokens s₁.rest)
      (hop : isOperator word s₁.pieces = false) :
      Finishes o tokens (do restore saved; return none) s₂ fun (x : Option Position) s' =>
        x.elim (s'.Ready tokens ∧ isOperator word (unblank s'.pieces) = false)
          fun _ => s'.Tight tokens := by
    refine (finishes_restore hs₂ hrest).bind fun _ s₃ hpost => ?_
    obtain ⟨hrest₃, hs₃⟩ := hpost
    refine finishes_pure ⟨?_, ?_⟩
    · rw [Ready, hrest₃, ← hrest₁]
      exact hs₃
    · rw [ParseState.pieces, hrest₃, ← ParseState.pieces, ← hpieces₁]
      exact hop
  have hpeek : Finishes o tokens peekKind s₁ fun k s₂ => k = s₁.head.kind ∧ s₂.rest = s₁.rest ∧
      (s₂.Tight tokens ∨ s₁.head.kind = word ∧ s₂.Sees tokens (Token.unblank s₂.rest.tail)) := by
    refine .value ⟨rfl, rfl, ?_⟩
    rcases hs₁ with hs₁ | ⟨hk, hs₁⟩
    · exact .inl hs₁.see
    · rw [see_eq_self (by rw [hk]; exact hword)]
      exact .inr ⟨hk, hs₁⟩
  refine hpeek.bind fun k s₂ hpost => ?_
  obtain ⟨hk, hrest₂, hs₂⟩ := hpost
  refine finishes_ite (fun hkind => ?_) fun hkind => ?_
  · have hillegal : s₂.head.kind.isIllegal = false := by
      rw [head_kind_congr hrest₂, ← hk, hkind]
      exact hword
    have hsees : s₂.Sees tokens (Token.unblank s₂.rest.tail) := by
      rcases hs₂ with hs₂ | ⟨-, hs₂⟩
      · exact (hs₂.clear hillegal).widen _
      · exact hs₂
    refine (finishes_keywordIsOperator hsees).bind fun b s₃ hpost => ?_
    obtain ⟨hb, hrest₃, hs₃, hname⟩ := hpost
    have hillegal₃ : s₃.head.kind.isIllegal = false := by
      rw [head_kind_congr hrest₃]
      exact hillegal
    refine finishes_ite (fun _ => ?_) fun hfalse => ?_
    · refine (finishes_requireSpace blank before hs₃ ?_).bind fun _ s₄ hs₄ => ?_
      · rw [see_eq_self hillegal₃]
        exact hs₃
      subst hs₄
      refine (finishes_next_past hs₃ hillegal₃).bind fun t s₅ hpost => ?_
      obtain ⟨-, hrest₅, hs₅⟩ := hpost
      have hready : s₅.Ready tokens := by
        rw [Ready, hrest₅, hrest₃]
        exact hs₅
      refine (finishes_skipBlank hready).bind fun _ s₆ hpost => ?_
      obtain ⟨-, hs₆⟩ := hpost
      refine (finishes_requireSpace _ after hs₆ hs₆.see).bind fun _ s₇ hs₇ => ?_
      subst hs₇
      exact finishes_pure hs₆
    · have hclear := hname (by simpa using hfalse)
      refine hback (hclear.widen _) ?_
      have hends : endsName (secondKind s₁.pieces) = true := by
        have hpieces : s₂.pieces = s₁.pieces := by rw [ParseState.pieces, hrest₂, ParseState.pieces]
        rw [← hpieces, ← following_kind]
        simpa [hb] using hfalse
      simp [isOperator, hends]
  · have htight : s₂.Tight tokens := by
      rcases hs₂ with hs₂ | ⟨hword', -⟩
      · exact hs₂
      · exact absurd (hk.trans hword') hkind
    refine hback (by rw [← hrest₂]; exact htight) ?_
    rw [hk, head_kind] at hkind
    simp [isOperator, hkind]

/-! ## Expressions -/

/-- A factor ends where no `OR` follows that would go on with it. -/
structure Settled (tokens : List Token) (s : ParseState) : Prop where
  ready : s.Ready tokens
  notOr : isOperator .orWord (unblank s.pieces) = false

include hi

theorem orTerm_finishes (h : s.Ready tokens) : Finishes o tokens (orTerm o inner) s fun x s' =>
    x.elim (Settled tokens s') fun _ => s'.Ready tokens := by
  refine (joiner_finishes rfl _ _ (.inl h)).bind fun x s₁ hs₁ => ?_
  cases x with
  | none => exact finishes_pure ⟨hs₁.1, hs₁.2⟩
  | some pos => exact (term_finishes hi hs₁).bind fun _ s₂ hs₂ => finishes_pure hs₂

theorem factor_finishes (h : s.Tight tokens) :
    Finishes o tokens (factor o inner) s fun _ s' => Settled tokens s' := by
  refine (finishes_peek h).bind fun _ s₁ hpost => ?_
  obtain ⟨-, -, hs₁⟩ := hpost
  refine (term_finishes hi hs₁).bind fun first s₂ hs₂ => ?_
  refine (finishes_many (fun s hs => orTerm_finishes hi hs) (orTerm_less hi.read) hs₂).bind
    fun others s₃ hs₃ => ?_
  exact finishes_spanned _ _ fun _ => hs₃

omit hi in
/-- Looking for the start of a factor notes only a token that is read next, be it in the factor or
behind the `AND` in front. -/
theorem startsFactor_finishes (h : s.Tight tokens) (hor : isOperator .orWord s.pieces = false) :
    Finishes o tokens (startsFactor o) s fun b s' => s'.rest = s.rest ∧
      if b = true then s'.Tight tokens
      else s'.Tight tokens ∨
        s.head.kind = .andWord ∧ s'.Sees tokens (Token.unblank s.rest.tail) := by
  have hkeep (b : Bool) {s₁ : ParseState} (hrest : s₁.rest = s.rest) (hs₁ : s₁.Tight tokens) :
      Finishes o tokens (pure b) s₁ fun b s' => s'.rest = s.rest ∧
        if b = true then s'.Tight tokens
        else s'.Tight tokens ∨
          s.head.kind = .andWord ∧ s'.Sees tokens (Token.unblank s.rest.tail) := by
    refine finishes_pure ⟨hrest, ?_⟩
    split
    · exact hs₁
    · exact .inl hs₁
  refine (finishes_peekKind h).bind fun k s₁ hpost => ?_
  obtain ⟨hk, hrest, hs₁⟩ := hpost
  have hkind : k = s.head.kind := hk.trans (head_kind_congr hrest)
  split
  · have hclear : s₁.Clear tokens := hs₁.clear (by rw [← hk]; rfl)
    refine (finishes_keywordIsOperator (hclear.widen _)).bind fun b s₂ hpost => ?_
    obtain ⟨-, hrest₂, hs₂, hname⟩ := hpost
    refine finishes_pure ⟨hrest₂.trans hrest, ?_⟩
    cases b with
    | true =>
      rw [hrest] at hs₂
      exact .inr ⟨hkind.symm, hs₂⟩
    | false => exact (hname rfl).tight
  · have hclear : s₁.Clear tokens := hs₁.clear (by rw [← hk]; rfl)
    refine (finishes_keywordIsOperator (hclear.widen _)).bind fun b s₂ hpost => ?_
    obtain ⟨hb, hrest₂, -, hname⟩ := hpost
    -- an `OR` that is an operator would have been taken
    have hends : endsName (secondKind s.pieces) = true := by
      rw [isOperator, ← head_kind, ← hkind] at hor
      simpa using hor
    have hpieces : s₁.pieces = s.pieces := by rw [ParseState.pieces, hrest, ParseState.pieces]
    have hfalse : b = false := by rw [hb, following_kind, hpieces, hends]; rfl
    subst hfalse
    exact finishes_pure ⟨hrest₂.trans hrest, (hname rfl).tight⟩
  · exact hkeep true hrest hs₁
  · exact hkeep true hrest hs₁
  · exact hkeep true hrest hs₁
  · exact hkeep _ hrest hs₁
  · exact hkeep _ hrest hs₁
  · exact hkeep _ hrest hs₁

theorem nextFactor_finishes (h : Settled tokens s) :
    Finishes o tokens (nextFactor o inner) s fun x s' =>
      x.elim (s'.Ready tokens ∨ Ahead tokens .andWord s') fun _ => Settled tokens s' := by
  refine finishes_get.bind fun saved s' hpost => ?_
  obtain ⟨hsaved, hs'⟩ := hpost
  subst hs' hsaved
  refine (finishes_skipBlank h.ready).bind fun x s₁ hpost => ?_
  obtain ⟨hrest₁, hs₁⟩ := hpost
  have hpieces₁ := pieces_of_unblank hrest₁
  cases x with
  | none => exact finishes_pure (.inl hs₁.ready)
  | some blank =>
    have hor : isOperator .orWord s₁.pieces = false := by
      rw [hpieces₁]
      exact h.notOr
    refine (startsFactor_finishes hs₁ hor).bind fun b s₂ hpost => ?_
    obtain ⟨hrest₂, hs₂⟩ := hpost
    refine finishes_ite (fun hb => ?_) fun hb => ?_
    · rw [if_pos hb] at hs₂
      refine (finishes_requireSpace _ _ hs₂ hs₂.see).bind fun _ s₃ hs₃ => ?_
      subst hs₃
      exact (factor_finishes hi hs₂).bind fun _ s₄ hs₄ => finishes_pure hs₄
    · rw [if_neg hb] at hs₂
      have hrest := h.ready.rest
      rcases hs₂ with hs₂ | ⟨hand, hs₂⟩
      · refine (finishes_restore hs₂ hrest).bind fun _ s₃ hpost => ?_
        obtain ⟨hrest₃, hs₃⟩ := hpost
        refine finishes_pure (.inl ?_)
        rw [Ready, hrest₃, ← hrest₁, ← hrest₂]
        exact hs₃
      · refine (finishes_restore hs₂ hrest).bind fun _ s₃ hpost => ?_
        obtain ⟨hrest₃, hs₃⟩ := hpost
        refine finishes_pure (.inr ⟨?_, ?_⟩)
        · rw [ParseState.pieces, hrest₃, ← ParseState.pieces, ← hpieces₁, ← head_kind]
          exact hand
        · rw [hrest₃, ← hrest₁]
          exact hs₃

theorem sequence_finishes (h : s.Tight tokens) : Finishes o tokens (sequence o inner) s fun _ s' =>
    s'.Ready tokens ∨ Ahead tokens .andWord s' := by
  refine (finishes_peek h).bind fun _ s₁ hpost => ?_
  obtain ⟨-, -, hs₁⟩ := hpost
  refine (factor_finishes hi hs₁).bind fun first s₂ hs₂ => ?_
  refine (finishes_many (fun s hs => nextFactor_finishes hi hs) (nextFactor_less hi.read) hs₂).bind
    fun others s₃ hs₃ => ?_
  exact finishes_spanned _ _ fun _ => hs₃

theorem andSequence_finishes (h : s.Ready tokens ∨ Ahead tokens .andWord s) :
    Finishes o tokens (andSequence o inner) s fun x s' =>
      x.elim (s'.Ready tokens) fun _ => s'.Ready tokens ∨ Ahead tokens .andWord s' := by
  refine (joiner_finishes rfl _ _ h).bind fun x s₁ hs₁ => ?_
  cases x with
  | none => exact finishes_pure hs₁.1
  | some pos => exact (sequence_finishes hi hs₁).bind fun _ s₂ hs₂ => finishes_pure hs₂

theorem expressionBody_finishes (h : s.Tight tokens) :
    Finishes o tokens (expressionBody o inner) s fun _ s' => s'.Ready tokens := by
  refine (finishes_peek h).bind fun _ s₁ hpost => ?_
  obtain ⟨-, -, hs₁⟩ := hpost
  refine (sequence_finishes hi hs₁).bind fun first s₂ hs₂ => ?_
  refine (finishes_many (fun s hs => andSequence_finishes hi hs) (andSequence_less hi.read) hs₂).bind
    fun others s₃ hs₃ => ?_
  exact finishes_spanned _ _ fun _ => hs₃

omit hi in
/-- By induction on the levels: where none is left, the nesting goes too deep. -/
theorem innerAt_report (o : ParserOptions) (tokens : List Token) :
    ∀ levels, (innerAt o levels).Report o tokens
  | 0 => ⟨fun h => finishes_tooDeep h, fun h => finishes_tooDeep h, innerAt_read o 0⟩
  | levels + 1 =>
    have hi := innerAt_report o tokens levels
    ⟨fun h => expressionBody_finishes hi h, fun h => comparableBody_finishes hi h,
      innerAt_read o (levels + 1)⟩

/-! ## Whole texts -/

omit hi

/-- Two ways to go on that agree on what a run can end in. -/
theorem Finishes.bind_congr {f g : α → Parser β} (hp : Finishes o tokens p s Q)
    (hf : ∀ a s', Q a s' → f a s' = g a s') : (p >>= f) s = (p >>= g) s := by
  change EStateM.bind p f s = EStateM.bind p g s
  unfold EStateM.bind
  unfold Finishes at hp
  generalize p s = result at hp ⊢
  cases hp with
  | value h => exact hf _ _ h
  | failed h => rfl

/-- A whole text, without the question in the end whether illegal tokens have been reported. -/
def filterUnchecked (o : ParserOptions) : Parser (Option Expression) := do
  let _ ← skipBlank
  if (← peekKind) = .eof then return none
  let root ← expression o o.maxDepth
  let _ ← skipBlank
  let t ← next
  if t.kind = .eof then return some root else unexpected t "end of filter"

theorem filterUnchecked_finishes (h : s.Clear tokens) :
    Finishes o tokens (filterUnchecked o) s fun _ s' => s'.Clear tokens := by
  refine (finishes_skipBlank h.ready).bind fun _ s₁ hpost => ?_
  obtain ⟨-, hs₁⟩ := hpost
  refine (finishes_peekKind hs₁).bind fun k s₂ hpost => ?_
  obtain ⟨hk, -, hs₂⟩ := hpost
  refine finishes_ite (fun heof => ?_) fun _ => ?_
  · exact finishes_pure (hs₂.clear (by rw [← hk, heof]; rfl))
  refine ((innerAt_report o tokens _).expression hs₂).bind fun root s₃ hs₃ => ?_
  refine (finishes_skipBlank hs₃).bind fun _ s₄ hpost => ?_
  obtain ⟨-, hs₄⟩ := hpost
  refine (finishes_next hs₄).bind fun t s₅ hpost => ?_
  obtain ⟨-, ht⟩ := hpost
  refine finishes_ite (fun heof => ?_) fun _ => finishes_unexpected ht _
  exact finishes_pure (ht.clear (by rw [heof]; rfl))

/-- At the end of a text no illegal token has been seen, so the question changes nothing. -/
theorem filter_eq_filterUnchecked (h : s.Clear tokens) : filter o s = filterUnchecked o s := by
  refine (finishes_skipBlank (o := o) h.ready).bind_congr fun _ s₁ hpost => ?_
  obtain ⟨-, hs₁⟩ := hpost
  refine (finishes_peekKind (o := o) hs₁).bind_congr fun k s₂ hpost => ?_
  obtain ⟨-, -, hs₂⟩ := hpost
  split
  · rfl
  refine ((innerAt_report o tokens _).expression hs₂).bind_congr fun root s₃ hs₃ => ?_
  refine (finishes_skipBlank (o := o) hs₃).bind_congr fun _ s₄ hpost => ?_
  obtain ⟨-, hs₄⟩ := hpost
  refine (finishes_next (o := o) hs₄).bind_congr fun t s₅ hpost => ?_
  obtain ⟨-, ht⟩ := hpost
  split
  · rename_i heof
    have hclear : s₅.Clear tokens := ht.clear (by rw [heof]; rfl)
    have hcount : ¬ 0 < s₅.log.count := by
      rw [hclear.silent.1]
      decide
    change (if 0 < s₅.log.count then _ else _ : Parser (Option Expression)) s₅ = _
    rw [if_neg hcount]
  · rfl

end Parser

theorem Reported.length_eq_one {o : ParserOptions} {tokens : List Token} {e : FilterError}
    {reports : List (Report SyntaxCause)} (h : Reported o tokens e reports)
    (hloose : o.strictWhitespace = false)
    (hdepth : ∀ r ∈ reports, r.cause ≠ .tooDeep o.maxDepth) : reports.length = 1 := by
  cases h with
  | once pos c => rfl
  | twice mem illegal pos interrupts =>
    rw [SyntaxCause.interrupts, hloose, Bool.false_and, Bool.false_or, beq_iff_eq] at interrupts
    exact absurd interrupts (hdepth _ (List.mem_cons_of_mem _ List.mem_cons_self))

/-- A filter that is read makes no report. A failure is a syntax error that is reported at its
position; an earlier report is that of an illegal token, and then blanks or the nesting are what
failed, so without strict blanks and within the nesting allowed there is one report only. The
question in the end whether illegal tokens have been reported changes nothing. -/
theorem parse_reports (o : ParserOptions) (input : String) :
    (match parseReporting o input with
      | (.ok _, reports) => reports = []
      | (.error e, reports) =>
        Reported o (Lexer.ofString input).tokenize e reports ∧
          (o.strictWhitespace = false → (∀ r ∈ reports, r.cause ≠ .tooDeep o.maxDepth) →
            reports.length = 1)) ∧
      Parser.filter o (.ofString input) = Parser.filterUnchecked o (.ofString input) := by
  have hclear : (ParseState.ofString input).Clear (Lexer.ofString input).tokenize := by
    refine ⟨fun t ht => ?_, .inl ⟨rfl, rfl⟩⟩
    rw [Lexer.tokenize_ofString, tokenize]
    exact List.mem_append_left _ ht
  have hfilter := Parser.filter_eq_filterUnchecked (o := o) hclear
  refine ⟨?_, hfilter⟩
  have hrun := Parser.filterUnchecked_finishes (o := o) hclear
  unfold parseReporting
  rw [hfilter]
  unfold Parser.Finishes at hrun
  generalize Parser.filterUnchecked o (.ofString input) = result at hrun ⊢
  cases hrun with
  | value h => exact h.silent.2
  | failed h => exact ⟨h, h.length_eq_one⟩

/-- Two blanks before an illegal token, which `AND` was looked behind for: the token is reported
first, and what fails are the blanks. -/
theorem blanks_before_illegal_reports : ∃ pos t fault c,
    parseReporting (ParserOptions.strict {}) "a AND  ?" =
      (.error (.invalidSyntax pos), [⟨t.pos, .fault fault⟩, ⟨pos, c⟩]) ∧
    t ∈ (Lexer.ofString "a AND  ?").tokenize ∧ t.kind = .illegal fault ∧
    c.interrupts (ParserOptions.strict {}) = true := by
  have hreports := (parse_reports (ParserOptions.strict {}) "a AND  ?").1
  have htwo : (parseReporting (ParserOptions.strict {}) "a AND  ?").2.length = 2 := by
    decide +kernel
  cases hrun : parseReporting (ParserOptions.strict {}) "a AND  ?" with
  | mk outcome reports =>
    rw [hrun] at hreports htwo
    cases outcome with
    | ok e => rw [show reports = [] from hreports] at htwo; cases htwo
    | error e =>
      obtain ⟨hreported, -⟩ := hreports
      cases hreported with
      | once pos c => cases htwo
      | @twice t fault mem illegal pos c interrupts =>
        exact ⟨pos, t, fault, c, rfl, mem, illegal, interrupts⟩

/-- The same without strict blanks. -/
example : (parseReporting {} "a AND  ?").2.map (·.pos.offset) = [7] := by decide +kernel

end ListQuery.Filter
