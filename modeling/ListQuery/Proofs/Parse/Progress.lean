/-
Progress of the parser. Looking ahead leaves it where it stands, and every production that succeeds
leaves it further on (`Parser.Production.precedes`), because the first token of what it gives is no
blank and has been taken. So each turn of a loop leaves fewer tokens, and the loops of the grammar
come to an end by themselves (`Parser.Repetition.halts`). Main statement: `parse_progress`.
-/
import ListQuery.Proofs.Parse.Nesting
import ListQuery.Proofs.Parse.Noted
import ListQuery.Proofs.Token.Session

namespace ListQuery.Filter

namespace ParseState

variable {input : String} {s s' : ParseState}

/-- Tokens in front have been taken, so the parser stands further on in the text. -/
structure Precedes (s s' : ParseState) : Prop where
  taken : ∃ ts, ts ≠ [] ∧ s.rest = ts ++ s'.rest
  offset : s.head.pos.offset < s'.head.pos.offset

theorem head_mem (s : ParseState) : s.head ∈ s.rest ++ [.eof s.finish] := by
  unfold head
  cases s.rest with
  | nil => exact List.mem_singleton_self _
  | cons t ts => exact List.mem_cons_self

/-- The end of the text is where it is, whatever has been taken. -/
theorem Reached.finish_eq (h : s.Reached input) (h' : s'.Reached input) : s'.finish = s.finish := by
  obtain ⟨before, hbefore⟩ := h.tokens_suffix
  obtain ⟨before', hbefore'⟩ := h'.tokens_suffix
  have hlast := congrArg List.getLast? (hbefore'.trans hbefore.symm)
  simpa [Token.eof] using hlast

/-- A token that is seen again is not noted again. -/
theorem see_see (s : ParseState) (t : Token) : (s.see t).see t = s.see t := by
  have hlog : (s.log.see t).1.see t = ((s.log.see t).1, none) := by
    simp only [FaultLog.see_eq]
    split <;> simp_all
  simp [see, hlog]

/-- Later tokens stand further on. -/
theorem Reached.precedes (h : s.Reached input) (h' : s'.Reached input) {ts : List Token}
    (hts : ts ≠ []) (hrest : s.rest = ts ++ s'.rest) : s.Precedes s' := by
  refine ⟨⟨ts, hts, hrest⟩, ?_⟩
  obtain ⟨t, us, rfl⟩ := List.exists_cons_of_ne_nil hts
  have hpairwise := (tokens_pairwise input).sublist h.tokens_suffix.sublist
  have hhead : s.head = t := by rw [head, hrest]; rfl
  rw [hrest, ← h.finish_eq h', List.append_assoc, List.cons_append, ← hhead] at hpairwise
  exact List.rel_of_pairwise_cons hpairwise (List.mem_append_right us s'.head_mem)

end ParseState

namespace Parser

variable {α : Type} {o : ParserOptions} {input : String} {s s' : ParseState}

/-- What follows a word, looked at step by step: the word is taken and the blank behind it, and the
parser goes back. -/
def operatorAhead : Parser Bool := do
  let saved ← get
  let _ ← next
  let _ ← skipBlank
  let kind ← peekKind
  restore saved
  return !endsName kind

/-- A word is never illegal, so only what follows it is noted, and going back leaves the parser
where it was. -/
theorem operatorAhead_eq (h : s.head.kind.isKeyword = true) :
    operatorAhead s = keywordIsOperator s := by
  have hword : s.see s.head = s := by
    refine ParseState.see_eq_self ?_
    cases hk : s.head.kind <;> first | rfl | (rw [hk] at h; cases h)
  have hahead : operatorAhead s = (do
      let _ ← skipBlank
      let kind ← peekKind
      restore s
      return !endsName kind : Parser Bool) s.advance := by
    rw [← congrArg ParseState.advance hword]
    rfl
  rw [hahead]
  by_cases hblank : s.advance.head.kind = .whitespace
  · have hskip : skipBlank s.advance = .ok (some s.advance.head) s.advance.advance := by
      have hsee : s.advance.see s.advance.head = s.advance :=
        ParseState.see_eq_self (by rw [hblank]; rfl)
      rw [skipBlank, eat, if_pos hblank, hsee]
    have hfollowing : s.following = s.advance.advance.head := if_pos hblank
    rw [bind_of_ok hskip, keywordIsOperator, hfollowing]
    rfl
  · have hskip : skipBlank s.advance = .ok none (s.advance.see s.advance.head) := by
      rw [skipBlank, eat, if_neg hblank]
    have hfollowing : s.following = s.advance.head := if_neg hblank
    have hpeek : peekKind (s.advance.see s.advance.head) =
        .ok s.advance.head.kind (s.advance.see s.advance.head) := by
      rw [peekKind, ParseState.see_head, ParseState.see_see]
    rw [bind_of_ok hskip, bind_of_ok hpeek, keywordIsOperator, hfollowing]
    rfl

/-- A step that cannot fail. -/
def Answers (p : Parser α) : Prop := ∀ s, ∃ a s', p s = .ok a s'

theorem answers_pure (a : α) : Answers (pure a) := fun s => ⟨a, s, rfl⟩

theorem Answers.bind {β : Type} {p : Parser α} {f : α → Parser β} (hp : Answers p)
    (hf : ∀ a, Answers (f a)) : Answers (p >>= f) := by
  intro s
  obtain ⟨a, s₁, h₁⟩ := hp s
  obtain ⟨b, s', h⟩ := hf a s₁
  exact ⟨b, s', bind_ok.2 ⟨a, s₁, h₁, h⟩⟩

theorem answers_keywordIsOperator : Answers keywordIsOperator := fun _ => ⟨_, _, rfl⟩

theorem answers_startsFactor (o : ParserOptions) : Answers (startsFactor o) := by
  refine Answers.bind (fun s => ⟨_, _, rfl⟩) fun kind => ?_
  split
  case h_1 | h_2 => exact answers_keywordIsOperator.bind fun _ => answers_pure _
  all_goals exact answers_pure _

/-! ## Productions -/

/-- The productions of the grammar with so many levels of nesting left. What is read behind a name
takes the name. -/
inductive Production (o : ParserOptions) : (α : Type) → Parser α → Prop where
  | expression (levels : Nat) : Production o Expression (expression o levels)
  | sequence (levels : Nat) : Production o Sequence (sequence o (innerAt o levels))
  | factor (levels : Nat) : Production o Factor (factor o (innerAt o levels))
  | term (levels : Nat) : Production o Term (term o (innerAt o levels))
  | restriction (levels : Nat) : Production o Restriction (restriction o (innerAt o levels))
  | composite (levels : Nat) : Production o Composite (composite (innerAt o levels))
  | arg (levels : Nat) : Production o Arg (arg (innerAt o levels))
  | comparable (levels : Nat) : Production o Comparable (comparable o levels)
  | call (levels : Nat) (name : List Leaf) (start : Position) :
      Production o Call (call o (innerAt o levels) name start)
  | array (levels : Nat) : Production o ArrayLiteral (arrayLiteral o (innerAt o levels))
  | struct (levels : Nat) (name : List Leaf) (start : Position) :
      Production o StructLiteral (structLiteral o (innerAt o levels) name start)

/-- The opening delimiter is taken, and the tokens up to the closing one. -/
theorem enclosed_taken {β γ : Type} {kind : Kind} (hk : kind ≠ .eof) {what : String}
    {b : Brackets} {c : Piece} (hb : b.close = c.kind) (hc : c.kind.spelling? = some c.text)
    (ho : o.Admits c.kind) {item : Parser β} {y : β → List Part}
    (hitem : ∀ {s a s'}, item s = .ok a s' → Takes o s (y a) s') {start : Token → Position}
    {make : Span → List β → γ} {x : γ} (h : (do
      let t ← expect kind what
      let as ← delimited o b item
      return make (← spanFrom (start t)) as : Parser γ) s = .ok x s') :
    ∃ ts, ts ≠ [] ∧ s.rest = ts ++ s'.rest := by
  simp only [expect, bind_ok] at h
  obtain ⟨t, s₁, ⟨t₁, s₂, h₁, h⟩, as, s₃, h₂, span, s₄, h₃, hx⟩ := h
  obtain ⟨rfl, rfl⟩ := next_eq h₁
  obtain ⟨rfl, -⟩ := spanFrom_eq h₃
  obtain ⟨-, rfl⟩ := pure_ok.1 hx
  split at h
  · next hkind =>
    obtain ⟨-, rfl⟩ := pure_ok.1 h
    obtain ⟨ts, hrest, -⟩ := delimited_takes hb hc ho hitem h₂
    refine ⟨s.head :: ts, List.cons_ne_nil _ _, ?_⟩
    rw [List.cons_append, ← hrest]
    exact rest_of_head (hkind ▸ hk)
  · exact absurd h unexpected_ok

/-- What is read starts with a token that is taken. -/
theorem reads_taken {ps : List Part} (h : Reads o s ps s') :
    ∃ ts, ts ≠ [] ∧ s.rest = ts ++ s'.rest := by
  obtain ⟨ts, hrest, -⟩ := h.takes
  refine ⟨ts, ?_, hrest⟩
  rintro rfl
  have hless := h.less
  rw [hrest, List.nil_append] at hless
  exact absurd hless (Nat.lt_irrefl _)

namespace Production

variable {p : Parser α}

theorem taken (hp : Production o α p) {a : α} (h : p s = .ok a s') :
    ∃ ts, ts ≠ [] ∧ s.rest = ts ++ s'.rest := by
  have hi := innerAt_read o
  cases hp with
  | expression levels => exact reads_taken ((hi levels).expression h)
  | sequence levels => exact reads_taken (sequence_reads (hi levels) h)
  | factor levels => exact reads_taken (factor_reads (hi levels) h)
  | term levels => exact reads_taken (term_reads (hi levels) h)
  | restriction levels => exact reads_taken (restriction_reads (hi levels) h)
  | composite levels => exact reads_taken (composite_reads (hi levels) h)
  | arg levels => exact reads_taken (arg_reads (hi levels) h)
  | comparable levels => exact reads_taken ((hi levels).comparable h)
  | call levels name start =>
    exact enclosed_taken (by decide) (c := ⟨.rightParen, ")"⟩) rfl rfl (.plain (by decide))
      (fun h => (arg_reads (hi levels) h).takes) h
  | array levels =>
    exact enclosed_taken (by decide) (c := ⟨.rightBracket, "]"⟩) rfl rfl (.plain (by decide))
      (fun h => ((hi levels).comparable h).takes) h
  | struct levels name start =>
    exact enclosed_taken (by decide) (c := ⟨.rightBrace, "\x7d"⟩) rfl rfl (.plain (by decide))
      (fun h => (structEntry_reads (hi levels) h).takes) h

theorem tracks (hp : Production o α p) (k : Nat) : Tracks input (k + 1) (k + 1) p p := by
  have hi (levels k : Nat) : (innerAt o levels).Track input k (innerAt o levels) :=
    innerAt_track_self o levels k
  cases hp with
  | expression levels => exact (hi levels (k + 2)).expression
  | sequence levels => exact tracks_sequence (hi levels (k + 1))
  | factor levels => exact tracks_factor (hi levels (k + 1))
  | term levels => exact tracks_term (hi levels (k + 1))
  | restriction levels => exact tracks_restriction (hi levels (k + 1))
  | composite levels => exact tracks_composite (hi levels (k + 1))
  | arg levels => exact tracks_arg (hi levels (k + 1))
  | comparable levels => exact (hi levels (k + 1)).comparable
  | call levels name start => exact tracks_call (hi levels k) name start
  | array levels => exact tracks_arrayLiteral (hi levels k)
  | struct levels name start => exact tracks_structLiteral (hi levels k) name start

theorem reached (hp : Production o α p) (hs : s.Reached input) {a : α} (h : p s = .ok a s') :
    s'.Reached input :=
  ((hp.tracks s.rest.length s hs (Nat.lt_succ_self _)).2 a s' h).1

theorem precedes (hp : Production o α p) (hs : s.Reached input) {a : α} (h : p s = .ok a s') :
    s.Precedes s' := by
  obtain ⟨ts, hts, hrest⟩ := hp.taken h
  exact hs.precedes (hp.reached hs h) hts hrest

end Production

/-! ## Loops -/

/-- What a turn has added comes before what the rest of the loop gives. -/
def prepend (as : List α) :
    EStateM.Result FilterError ParseState (List α) → EStateM.Result FilterError ParseState (List α)
  | .ok bs s => .ok (as ++ bs) s
  | .error e s => .error e s

theorem bind_prepend (p : Parser (List α)) (as : List α) (s : ParseState) :
    (p >>= fun bs => pure (as ++ bs)) s = prepend as (p s) := by
  cases hp : p s with
  | ok bs s' => rw [bind_of_ok hp]; rfl
  | error e s' => rw [bind_error hp]; rfl

/-- A loop that comes to an end, and what it ends in. A turn gives what it adds and whether the loop
goes on. -/
inductive Halts (turn : Parser (List α × Bool)) :
    ParseState → EStateM.Result FilterError ParseState (List α) → Prop where
  | failed {s s' : ParseState} {e : FilterError} (run : turn s = .error e s') :
      Halts turn s (.error e s')
  | stopped {s s' : ParseState} {as : List α} (run : turn s = .ok (as, false) s') :
      Halts turn s (.ok as s')
  | again {s s₁ : ParseState} {as : List α} {r : EStateM.Result FilterError ParseState (List α)}
      (run : turn s = .ok (as, true) s₁) (others : Halts turn s₁ r) : Halts turn s (prepend as r)

/-- A turn that goes on leaves fewer tokens. -/
def Shrinks (turn : Parser (List α × Bool)) : Prop :=
  ∀ s as s', turn s = .ok (as, true) s' → s'.rest.length < s.rest.length

/-- A run of a bounded number of turns, each of which uses up one of them. -/
def Unrolls (turn : Parser (List α × Bool)) (run : Nat → Parser (List α)) : Prop :=
  ∀ fuel, run (fuel + 1) = turn >>= fun x =>
    if x.2 then run fuel >>= fun bs => pure (x.1 ++ bs) else pure x.1

/-- Turns that leave fewer tokens each are no more than there are tokens, so the bound is never
met. -/
theorem halts_of_unrolls {turn : Parser (List α × Bool)} {run : Nat → Parser (List α)}
    (h : Unrolls turn run) (hless : Shrinks turn) :
    ∀ fuel {s : ParseState}, s.rest.length < fuel → Halts turn s (run fuel s) := by
  intro fuel
  induction fuel with
  | zero => exact fun hlt => absurd hlt (Nat.not_lt_zero _)
  | succ fuel ih =>
    intro s hlt
    rw [h fuel]
    cases hturn : turn s with
    | error e s₁ =>
      rw [bind_error hturn]
      exact .failed hturn
    | ok x s₁ =>
      obtain ⟨as, goesOn⟩ := x
      rw [bind_of_ok hturn]
      cases goesOn with
      | false => exact .stopped hturn
      | true =>
        have hless' := hless s as s₁ hturn
        have hrun := bind_prepend (run fuel) as s₁
        simp only [if_true, hrun]
        exact .again hturn (ih (by omega))

/-- The turns of a step that is repeated until it gives nothing. -/
def stepTurn (step : Parser (Option α)) : Parser (List α × Bool) := do
  match ← step with
  | none => return ([], false)
  | some a => return ([a], true)

/-- The turns of reading items: one is read, and a comma behind it makes another one follow. -/
def itemTurn (o : ParserOptions) (b : Brackets) (item : Parser α) : Parser (List α × Bool) := do
  let a ← item
  innerBlank o b.place
  let t ← next
  if t.kind = .comma then
    innerBlank o b.place
    return ([a], true)
  else if t.kind = b.close then return ([a], false)
  else unexpected t b.expected

/-- Items up to the closing delimiter. -/
def items (o : ParserOptions) (b : Brackets) (item : Parser α) : Parser (List α) := fun s =>
  itemsFrom o b item (s.rest.length + 1) s

theorem unrolls_repeatStep (step : Parser (Option α)) :
    Unrolls (stepTurn step) (repeatStep step) := by
  intro fuel
  rw [repeatStep, stepTurn, bind_assoc]
  refine congrArg (step >>= ·) (funext fun x => ?_)
  cases x with
  | none => rfl
  | some a => rfl

/-- A failure is the same whatever would have followed. -/
theorem unexpected_bind {β : Type} (t : Token) (what : String) (f : α → Parser β) :
    unexpected t what >>= f = unexpected t what := by
  have herror (s : ParseState) : ∃ e s', ∀ γ, (unexpected t what : Parser γ) s = .error e s' := by
    by_cases h : t.kind.isIllegal = true
    · exact ⟨_, _, fun γ => if_pos h⟩
    · exact ⟨_, _, fun γ => if_neg h⟩
  funext s
  obtain ⟨e, s', h⟩ := herror s
  rw [bind_error (h α), h β]

theorem unrolls_itemsFrom (b : Brackets) (item : Parser α) :
    Unrolls (itemTurn o b item) (itemsFrom o b item) := by
  intro fuel
  simp only [itemsFrom, itemTurn, bind_assoc]
  refine congrArg (item >>= ·) (funext fun a => congrArg (_ >>= ·) (funext fun _ =>
    congrArg (next >>= ·) (funext fun t => ?_)))
  split
  · simp only [bind_assoc]
    rfl
  · split
    · rfl
    · exact (unexpected_bind _ _ _).symm

theorem stepTurn_shrinks {step : Parser (Option α)}
    (h : ∀ {s a s'}, step s = .ok (some a) s' → s'.rest.length < s.rest.length) :
    Shrinks (stepTurn step) := by
  intro s as s' hturn
  simp only [stepTurn, bind_ok] at hturn
  obtain ⟨x, s₁, h₁, h₂⟩ := hturn
  cases x with
  | none => cases (pure_ok.1 h₂).1
  | some a =>
    rw [← (pure_ok.1 h₂).2]
    exact h h₁

/-- The item may take nothing, but the comma is taken. -/
theorem itemTurn_shrinks {b : Brackets} {item : Parser α} {y : α → List Part}
    (h : ∀ {s a s'}, item s = .ok a s' → Takes o s (y a) s') : Shrinks (itemTurn o b item) := by
  intro s as s' hturn
  simp only [itemTurn, bind_ok] at hturn
  obtain ⟨a, s₁, h₁, _, s₂, h₂, t, s₃, h₃, hturn⟩ := hturn
  obtain ⟨rfl, -⟩ := next_eq h₃
  have hitem := ((h h₁).before (innerBlank_takes h₂)).length_le
  split at hturn
  · next hk =>
    simp only [bind_ok, pure_ok] at hturn
    obtain ⟨_, s₄, h₄, -, rfl⟩ := hturn
    have hcomma := (nextSign_reads (o := o) (p := .comma) h₃ hk rfl (.plain (by decide))).less
    have hblank := (innerBlank_takes h₄).length_le
    omega
  · split at hturn
    · cases (pure_ok.1 hturn).1
    · exact absurd hturn unexpected_ok

/-- The loops of the grammar and their turns. -/
inductive Repetition (o : ParserOptions) :
    (α : Type) → Parser (List α × Bool) → Parser (List α) → Prop where
  | path : Repetition o Leaf (stepTurn dottedLeaf) (many dottedLeaf)
  | terms (levels : Nat) : Repetition o (Position × Term) (stepTurn (orTerm o (innerAt o levels)))
      (many (orTerm o (innerAt o levels)))
  | factors (levels : Nat) : Repetition o Factor (stepTurn (nextFactor o (innerAt o levels)))
      (many (nextFactor o (innerAt o levels)))
  | sequences (levels : Nat) : Repetition o Sequence (stepTurn (andSequence o (innerAt o levels)))
      (many (andSequence o (innerAt o levels)))
  | args (levels : Nat) : Repetition o Arg (itemTurn o inCall (arg (innerAt o levels)))
      (items o inCall (arg (innerAt o levels)))
  | elements (levels : Nat) : Repetition o Comparable
      (itemTurn o inArray (comparable o levels)) (items o inArray (comparable o levels))
  | entries (levels : Nat) : Repetition o StructEntry
      (itemTurn o inStruct (structEntry o (innerAt o levels)))
      (items o inStruct (structEntry o (innerAt o levels)))

namespace Repetition

variable {turn : Parser (List α × Bool)} {loop : Parser (List α)}

theorem shrinks (h : Repetition o α turn loop) : Shrinks turn := by
  have hi := innerAt_read o
  cases h with
  | path => exact stepTurn_shrinks dottedLeaf_less
  | terms levels => exact stepTurn_shrinks (orTerm_less (hi levels))
  | factors levels => exact stepTurn_shrinks (nextFactor_less (hi levels))
  | sequences levels => exact stepTurn_shrinks (andSequence_less (hi levels))
  | args levels => exact itemTurn_shrinks fun h => (arg_reads (hi levels) h).takes
  | elements levels => exact itemTurn_shrinks fun h => ((hi levels).comparable h).takes
  | entries levels => exact itemTurn_shrinks fun h => (structEntry_reads (hi levels) h).takes

theorem exists_unrolls (h : Repetition o α turn loop) :
    ∃ run, Unrolls turn run ∧ ∀ s, loop s = run (s.rest.length + 1) s := by
  cases h with
  | path | terms | factors | sequences => exact ⟨_, unrolls_repeatStep _, fun _ => rfl⟩
  | args | elements | entries => exact ⟨_, unrolls_itemsFrom _ _, fun _ => rfl⟩

theorem halts (h : Repetition o α turn loop) (s : ParseState) : Halts turn s (loop s) := by
  obtain ⟨run, hrun, hloop⟩ := h.exists_unrolls
  rw [hloop]
  exact halts_of_unrolls hrun h.shrinks _ (Nat.lt_succ_self _)

end Repetition

end Parser

/-- The parser makes progress in every state that it can get to on a text. Looking ahead always
gives an answer and leaves the parser where it stands, as going back over what was taken does. A
production that succeeds leaves it further on, with whatever levels of nesting. A loop that goes on
after a turn has fewer tokens left, and ends by itself. And with more levels of nesting than there
are tokens the limit plays no part: no reading goes that deep. -/
theorem parse_progress (o : ParserOptions) (input : String) :
    (∀ s, ParseState.Reached input s →
      (∃ b s', Parser.keywordIsOperator s = .ok b s' ∧ s.Level s') ∧
      (s.head.kind.isKeyword = true → Parser.operatorAhead s = Parser.keywordIsOperator s) ∧
      (∃ b s', Parser.startsFactor o s = .ok b s' ∧ s.Level s') ∧
      (∀ α (p : Parser α), Parser.Production o α p → ∀ a s', p s = .ok a s' →
        s'.Reached input ∧ s.Precedes s') ∧
      ∀ α turn (loop : Parser (List α)), Parser.Repetition o α turn loop →
        (∀ as s', turn s = .ok (as, true) s' → s'.rest.length < s.rest.length) ∧
        Parser.Halts turn s (loop s)) ∧
    ∀ depth, (tokenize input).length < depth →
      parseReporting (o.withDepth depth) input =
        parseReporting (o.withDepth ((tokenize input).length + 1)) input := by
  refine ⟨fun s hs => ⟨?_, Parser.operatorAhead_eq, ?_, fun α p hp a s' h => ?_,
    fun α turn loop h => ?_⟩,
    fun depth hdepth => parseReporting_withDepth o input hdepth (Nat.lt_succ_self _)⟩
  · obtain ⟨b, s', h⟩ := Parser.answers_keywordIsOperator s
    exact ⟨b, s', h, Parser.keeps_keywordIsOperator h⟩
  · obtain ⟨b, s', h⟩ := Parser.answers_startsFactor o s
    exact ⟨b, s', h, Parser.keeps_startsFactor o h⟩
  · exact ⟨hp.reached hs h, hp.precedes hs h⟩
  · exact ⟨h.shrinks s, h.halts s⟩

/-- A text that starts with a word: as a name it is read with what follows, and as an operator it
makes the loop over terms go on. -/
theorem parse_progress_word : ∃ e s₁ terms s₂,
    let s := ParseState.ofString "OR a"
    s.Reached "OR a" ∧ Parser.operatorAhead s = Parser.keywordIsOperator s ∧
    Parser.expression {} 3 s = .ok e s₁ ∧ s.Precedes s₁ ∧
    Parser.stepTurn (Parser.orTerm {} (Parser.innerAt {} 3)) s = .ok (terms, true) s₂ ∧
    s₂.rest.length < s.rest.length ∧
    parseReporting (ParserOptions.withDepth {} 1000) "OR a" =
      parseReporting (ParserOptions.withDepth {} ((tokenize "OR a").length + 1)) "OR a" := by
  let s := ParseState.ofString "OR a"
  let turn := Parser.stepTurn (Parser.orTerm {} (Parser.innerAt {} 3))
  obtain ⟨hstates, hlimit⟩ := parse_progress {} "OR a"
  obtain ⟨-, hword, -, hproductions, hloops⟩ := hstates s .start
  have hexpression : (match Parser.expression {} 3 s with
      | .ok _ _ => true
      | .error _ _ => false) = true := by decide +kernel
  have hturn : (match turn s with
      | .ok x _ => x.2
      | .error _ _ => false) = true := by decide +kernel
  cases he : Parser.expression {} 3 s with
  | error _ _ => rw [he] at hexpression; cases hexpression
  | ok e s₁ =>
    cases ht : turn s with
    | error _ _ => rw [ht] at hturn; cases hturn
    | ok x s₂ =>
      rw [ht] at hturn
      obtain ⟨terms, _⟩ := x
      obtain rfl : _ = true := hturn
      exact ⟨e, s₁, terms, s₂, .start, hword (by decide +kernel), he,
        (hproductions _ _ (.expression 3) _ _ he).2, ht,
        (hloops _ _ _ (.terms 3)).1 _ _ ht, hlimit 1000 (by decide +kernel)⟩

end ListQuery.Filter
