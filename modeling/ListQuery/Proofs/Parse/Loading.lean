/-
The loader that stores what it reads does what the parser does and what storing the parsed tree
does. A loader runs abreast of a parser (`Loader.Abreast`): its lexer stands before the tokens that
the parser has left, and its counter of levels and the levels that the parser has left make up the
limit together. Each production of the loader gives, and leaves in the store, what storing the tree
of the parser's production gives and leaves (`Loader.Loads`). Main statement: `Store.reparse_eq`.
-/
import ListQuery.Filter.Load
import ListQuery.Proofs.Parse.Progress

namespace ListQuery.Filter

theorem Lexer.Mark.tokens_ahead {m : Lexer.Mark} {ts : List Token} {finish : Position}
    (h : m.tokens = ts ++ [.eof finish]) :
    m.ahead.1 = ts.headD (.eof finish) ∧ m.ahead.2.tokens = ts.tail ++ [.eof finish] := by
  have htokens := m.tokens_eq.symm.trans h
  cases ts with
  | nil =>
    obtain ⟨hhead, -⟩ := List.cons.inj htokens
    have hm : m.ahead.2 = m := by
      obtain ⟨position, rest⟩ := m
      obtain rfl : rest = [] := (Lexer.Mark.ahead_eof_iff _).1 (by rw [hhead]; rfl)
      rfl
    refine ⟨hhead, ?_⟩
    rw [hm]
    exact h
  | cons t ts =>
    obtain ⟨hhead, hbehind⟩ := List.cons.inj htokens
    split at hbehind
    · exact absurd hbehind.symm (List.append_ne_nil_of_right_ne_nil _ (List.cons_ne_nil _ _))
    · exact ⟨hhead, hbehind⟩

/-- Each token takes a part of the text. -/
theorem Token.length_scan_le (pos : Position) (cs : List Char) :
    (scan pos cs).length ≤ cs.length := by
  fun_induction scan pos cs with
  | case1 => exact Nat.le_refl _
  | case2 pos c cs t ih =>
    have hle := (lexeme_suffix c cs).length_le
    simp only [List.length_cons]
    omega

namespace Loader

variable {α β γ δ : Type} {finish : Position} {A B : ParseState → Prop} {d d₁ d' : Nat}
  {t : Store} {s : ParseState} {c : LoadState}

/-- A parser and a loader before the same tokens, the loader so many levels deep. A token that the
loader keeps looking at has been seen by the parser. -/
structure Abreast (finish : Position) (d : Nat) (t : Store) (s : ParseState) (c : LoadState) :
    Prop where
  tokens : c.lexer.mark.tokens = s.rest ++ [.eof finish]
  finish : s.finish = finish
  lastEnd : c.lastEnd = s.lastEnd
  log : c.lexer.log = s.log
  reports : c.allReports = s.reports
  silent : c.reports = []
  peeked : c.lexer.peeked.isSome = true → s.see s.head = s
  depth : c.depth = d
  store : c.store = t

namespace Abreast

theorem ahead (h : Abreast finish d t s c) : c.lexer.mark.ahead.1 = s.head := by
  rw [(Lexer.Mark.tokens_ahead h.tokens).1, ParseState.head, h.finish]

theorem position (h : Abreast finish d t s c) : c.lexer.position = s.head.pos := by
  rw [← h.ahead]
  obtain ⟨⟨_, position, rest, _, _, _, _⟩, _, _, _, _⟩ := c
  cases rest <;> rfl

theorem length_le (h : Abreast finish d t s c) : s.rest.length ≤ c.lexer.rest.length := by
  have htokens := congrArg List.length h.tokens
  have hle := Token.length_scan_le c.lexer.mark.position c.lexer.mark.rest
  rw [Lexer.Mark.tokens, List.length_append, List.length_append] at htokens
  exact Nat.le_of_add_le_add_right (htokens ▸ Nat.add_le_add_right hle 1)

/-- Looking at a token once is seeing it as often as one likes. -/
theorem look (h : Abreast finish d t s c) :
    Abreast finish d t (s.see s.head) { c with lexer := c.lexer.look } := by
  have hmark := c.lexer.mark_look
  unfold Lexer.look at hmark ⊢
  split
  · next hpeeked =>
    rw [h.peeked hpeeked]
    exact h
  · refine ⟨h.tokens, h.finish, h.lastEnd, ?_, ?_, h.silent, fun _ => s.see_see s.head, h.depth,
      h.store⟩
    · simp only [Lexer.see, ParseState.see, h.log, h.ahead]
    · have hreports := h.reports
      simp only [LoadState.allReports, h.silent, List.append_nil] at hreports
      simp only [LoadState.allReports, Lexer.see, ParseState.see, h.log, h.ahead, h.silent,
        List.map_append, List.append_nil, hreports]
      cases (s.log.see s.head).2 <;> rfl

/-- Going behind the token in front. -/
theorem pass (h : Abreast finish d t s c) :
    Abreast finish d t (s.see s.head).advance { c with
      lexer := c.lexer.look.restore c.lexer.mark.ahead.2
      lastEnd :=
        if s.head.kind = .whitespace ∨ s.head.kind = .eof then c.lastEnd else s.head.stop } := by
  have hlook := h.look
  refine ⟨(Lexer.Mark.tokens_ahead h.tokens).2, h.finish, ?_, hlook.log, hlook.reports, h.silent,
    fun hpeeked => absurd hpeeked Bool.false_ne_true, h.depth, h.store⟩
  rw [h.lastEnd]
  rfl

end Abreast

/-- Two runs with the same outcome: both give something, or both fail alike with the same
reports. -/
inductive Agree (Q : α → ParseState → β → LoadState → Prop) :
    EStateM.Result FilterError ParseState α → EStateM.Result FilterError LoadState β → Prop where
  | ok {a : α} {s : ParseState} {b : β} {c : LoadState} (h : Q a s b c) :
    Agree Q (.ok a s) (.ok b c)
  | error {e : FilterError} {s : ParseState} {c : LoadState} (h : c.allReports = s.reports) :
      Agree Q (.error e s) (.error e c)

/-- A loader that does what a parser does. `R` says what it gives for what the parser gives, and the
store that it leaves. -/
def Loads (finish : Position) (A : ParseState → Prop) (d d' : Nat) (t : Store) (p : Parser α)
    (q : Loader β) (R : α → β × Store) : Prop :=
  ∀ s c, A s → Abreast finish d t s c →
    Agree (fun a s' b c' => b = (R a).1 ∧ Abreast finish d' (R a).2 s' c') (p s) (q c)

/-- Any state of the parser. -/
abbrev Anywhere (_ : ParseState) : Prop := True

namespace Loads

variable {p : Parser α} {q : Loader β} {f : α → Parser γ} {g : β → Loader δ} {R : α → β × Store}
  {R' : γ → δ × Store}

theorem imp (h : Loads finish B d d' t p q R) (hB : ∀ s, A s → B s) :
    Loads finish A d d' t p q R :=
  fun s c hs hc => h s c (hB s hs) hc

/-- One run behind another; `B` is what the first one leaves to build on. -/
theorem bindTo (hp : Loads finish A d d₁ t p q R) (B : α → ParseState → Prop)
    (hB : ∀ {s a s'}, A s → p s = .ok a s' → B a s')
    (hf : ∀ a, Loads finish (B a) d₁ d' (R a).2 (f a) (g (R a).1) R') :
    Loads finish A d d' t (p >>= f) (q >>= g) R' := by
  intro s c hs hc
  have hrun := hp s c hs hc
  change Agree _ (EStateM.bind p f s) (EStateM.bind q g c)
  unfold EStateM.bind
  cases hps : p s with
  | ok a s₁ =>
    rw [hps] at hrun
    generalize q c = y at hrun
    cases hrun with
    | ok h =>
      obtain ⟨rfl, h⟩ := h
      exact hf a _ _ (hB hs hps) h
  | error e s₁ =>
    rw [hps] at hrun
    generalize q c = y at hrun
    cases hrun with
    | error h => exact .error h

theorem bind (hp : Loads finish A d d₁ t p q R)
    (hf : ∀ a, Loads finish Anywhere d₁ d' (R a).2 (f a) (g (R a).1) R') :
    Loads finish A d d' t (p >>= f) (q >>= g) R' :=
  hp.bindTo (fun _ => Anywhere) (fun _ _ => trivial) hf

/-- A step that gives what the parser's gives and leaves the store as it is. -/
theorem step {g : α → Loader δ} {q : Loader α} (hp : Loads finish A d d₁ t p q (·, t))
    (hf : ∀ a, Loads finish Anywhere d₁ d' t (f a) (g a) R') :
    Loads finish A d d' t (p >>= f) (q >>= g) R' :=
  hp.bind hf

theorem pure {a : α} {b : β} (h : (b, t) = R a) :
    Loads finish A d d t (Pure.pure a) (Pure.pure b) R := by
  intro s c _ hc
  refine .ok ?_
  rw [← h]
  exact ⟨rfl, hc⟩

theorem ite {P : Prop} [Decidable P] {p' : Parser α} {q' : Loader β}
    (h : P → Loads finish A d d' t p q R) (h' : ¬P → Loads finish A d d' t p' q' R) :
    Loads finish A d d' t (if P then p else p') (if P then q else q') R := by
  split
  · next hP => exact h hP
  · next hP => exact h' hP

end Loads

theorem next_loads : Loads finish A d d t Parser.next next (·, t) := by
  intro s c _ hc
  have hrun : next c = .ok s.head { c with
      lexer := c.lexer.look.restore c.lexer.mark.ahead.2
      lastEnd :=
        if s.head.kind = .whitespace ∨ s.head.kind = .eof then c.lastEnd else s.head.stop } := by
    rw [next, Lexer.scan_eq, hc.ahead]
  rw [hrun]
  exact .ok ⟨rfl, hc.pass⟩

theorem Loads.peek {f : Token → Parser γ} {g : Token → Loader δ} {R : γ → δ × Store}
    (hf : ∀ x, Loads finish (fun s => s.head = x) d d' t (f x) (g x) R) :
    Loads finish A d d' t (Parser.peek >>= f) (peek >>= g) R := by
  intro s c _ hc
  have hrun : Loader.peek c = .ok s.head { c with lexer := c.lexer.look } := by
    rw [Loader.peek, Lexer.peek_eq, hc.ahead]
    rfl
  change Agree _ (f s.head (s.see s.head)) (EStateM.bind Loader.peek g c)
  rw [EStateM.bind, hrun]
  exact hf s.head _ _ (s.see_head _) hc.look

theorem Loads.peekKind {f : Kind → Parser γ} {g : Kind → Loader δ} {R : γ → δ × Store}
    (hf : ∀ k, Loads finish (fun s => s.head.kind = k) d d' t (f k) (g k) R) :
    Loads finish A d d' t (Parser.peekKind >>= f) (Loader.peekKind >>= g) R := by
  intro s c hs hc
  exact Loads.peek (fun x s c hs hc => hf x.kind s c (congrArg Token.kind hs) hc) s c hs hc

theorem eat_loads (kind : Kind) (hk : kind ≠ .eof) :
    Loads finish A d d t (Parser.eat kind) (eat kind) (·, t) := by
  intro s c _ hc
  by_cases hkind : s.head.kind = kind
  · have hrun : eat kind c = .ok (some s.head) { c with
        lexer := c.lexer.look.restore c.lexer.mark.ahead.2
        lastEnd :=
          if s.head.kind = .whitespace ∨ s.head.kind = .eof then c.lastEnd else s.head.stop } := by
      simp [eat, Lexer.peek_eq, hc.ahead, hkind, hk]
    rw [hrun, Parser.eat, if_pos hkind]
    exact .ok ⟨rfl, hc.pass⟩
  · have hrun : eat kind c = .ok none { c with lexer := c.lexer.look } := by
      simp [eat, Lexer.peek_eq, hc.ahead, hkind]
    rw [hrun, Parser.eat, if_neg hkind]
    exact .ok ⟨rfl, hc.look⟩

theorem skipBlank_loads : Loads finish A d d t Parser.skipBlank skipBlank (·, t) :=
  eat_loads .whitespace (by decide)

theorem spanFrom_loads (start : Position) :
    Loads finish A d d t (Parser.spanFrom start) (spanFrom start) (·, t) := by
  intro s c _ hc
  rw [Parser.spanFrom, spanFrom, hc.lastEnd]
  exact .ok ⟨rfl, hc⟩

theorem fail_loads (pos : Position) (cause : SyntaxCause) {R : α → β × Store} :
    Loads finish A d d' t (Parser.fail pos cause) (fail pos cause) R := by
  intro s c _ hc
  refine .error ?_
  have hreports := hc.reports
  simp only [LoadState.allReports, hc.silent, List.append_nil, List.nil_append] at hreports ⊢
  rw [hreports]

theorem unexpected_loads (x : Token) (what : String) {R : α → β × Store} :
    Loads finish A d d' t (Parser.unexpected x what) (unexpected x what) R := by
  intro s c hs hc
  unfold Parser.unexpected unexpected
  by_cases hx : x.kind.isIllegal = true
  · rw [if_pos hx, if_pos hx]
    exact .error hc.reports
  · rw [if_neg hx, if_neg hx]
    exact fail_loads _ _ s c hs hc

theorem expect_loads (kind : Kind) (what : String) :
    Loads finish A d d t (Parser.expect kind what) (expect kind what) (·, t) :=
  next_loads.step fun x => .ite (fun _ => .pure rfl) fun _ => unexpected_loads x what

theorem leaf_loads (x : Token) (what : String) :
    Loads finish A d d t (Parser.leaf x what) (leaf x what) (·, t) := by
  unfold Parser.leaf leaf
  cases Leaf.ofToken? x with
  | some l => exact .pure rfl
  | none => exact unexpected_loads x what

/-- A place where a parser and a loader have stood. -/
structure Marks (finish : Position) (saved : ParseState) (m : Checkpoint) : Prop where
  tokens : m.mark.tokens = saved.rest ++ [.eof finish]
  lastEnd : m.lastEnd = saved.lastEnd

theorem Loads.checkpoint {f : ParseState → Parser γ} {g : Checkpoint → Loader δ}
    {R : γ → δ × Store}
    (hf : ∀ saved m, Marks finish saved m → Loads finish A d d' t (f saved) (g m) R) :
    Loads finish A d d' t (get >>= f) (Loader.checkpoint >>= g) R :=
  fun s c hs hc => hf s ⟨c.lexer.mark, c.lastEnd⟩ ⟨hc.tokens, hc.lastEnd⟩ s c hs hc

theorem restore_loads {saved : ParseState} {m : Checkpoint} (h : Marks finish saved m) :
    Loads finish A d d t (Parser.restore saved) (restore m) (·, t) := by
  intro s c _ hc
  refine .ok ⟨rfl, h.tokens, hc.finish, h.lastEnd, hc.log, hc.reports, hc.silent, ?_, hc.depth,
    hc.store⟩
  exact fun hpeeked => absurd hpeeked Bool.false_ne_true

theorem requireSpace_loads (o : ParserOptions) (blank : Option Token) (place : String) :
    Loads finish A d d t (Parser.requireSpace o blank place) (requireSpace o blank place)
      (·, t) := by
  refine .ite (fun _ => ?_) fun _ => .pure rfl
  cases blank with
  | some x => exact .ite (fun _ => .pure rfl) fun _ => fail_loads _ _
  | none => exact .peek fun x => fail_loads _ _

theorem innerBlank_loads (o : ParserOptions) (place : String) :
    Loads finish A d d t (Parser.innerBlank o place) (innerBlank o place) (·, t) := by
  refine skipBlank_loads.step fun blank => ?_
  cases blank with
  | some x => exact .ite (fun _ => fail_loads _ _) fun _ => .pure rfl
  | none => exact .pure rfl

theorem operatorAhead_loads :
    Loads finish A d d t Parser.operatorAhead keywordIsOperator (·, t) :=
  .checkpoint fun _ _ hm => next_loads.step fun _ => skipBlank_loads.step fun _ =>
    .peekKind fun _ => (restore_loads hm).step fun _ => .pure rfl

/-- The parser looks two tokens ahead where the loader takes them and goes back. -/
theorem keywordIsOperator_loads (hA : ∀ s, A s → s.head.kind.isKeyword = true) :
    Loads finish A d d t Parser.keywordIsOperator keywordIsOperator (·, t) := by
  intro s c hs hc
  rw [← Parser.operatorAhead_eq (hA s hs)]
  exact operatorAhead_loads s c hs hc

theorem startsFactor_loads (o : ParserOptions) :
    Loads finish A d d t (Parser.startsFactor o) (startsFactor o) (·, t) := by
  refine .peekKind fun k => ?_
  cases k
  case andWord | orWord =>
    exact (keywordIsOperator_loads fun s hs => by rw [hs]; rfl).step fun _ => .pure rfl
  all_goals exact .pure rfl

/-- What storing an optional part gives, and the store that it leaves. -/
def stored (m : α → Store.Storing β) (t : Store) : Option α → Option β × Store
  | none => (none, t)
  | some a => (some (m a t).1, (m a t).2)

/-- So few tokens are left that neither of two counts of steps is used up. -/
structure Short (n n' : Nat) (s : ParseState) : Prop where
  left : s.rest.length < n
  right : s.rest.length < n'

/-- The parser counts its steps by tokens and the loader by characters. -/
theorem repeatStep_loads {step : Parser (Option α)} {step' : β → Loader (Option β)}
    {m : β → α → Store.Storing β} {ms : β → List α → Store.Storing (List β)}
    (hstep : ∀ last t, Loads finish Anywhere d d t step (step' last) (stored (m last) t))
    (hless : ∀ {s a s'}, step s = .ok (some a) s' → s'.rest.length < s.rest.length)
    (hnil : ∀ last, ms last [] = Pure.pure [])
    (hcons : ∀ last a as, ms last (a :: as) = do
      let b ← m last a
      return b :: (← ms b as)) :
    ∀ fuel fuel' last t, Loads finish (Short fuel fuel') d d t (Parser.repeatStep step fuel)
      (repeatStep step' fuel' last) (ms last · t) := by
  intro fuel
  induction fuel with
  | zero => exact fun _ _ _ _ _ hs => absurd hs.left (Nat.not_lt_zero _)
  | succ fuel ih =>
    intro fuel' last t
    cases fuel' with
    | zero => exact fun _ _ hs => absurd hs.right (Nat.not_lt_zero _)
    | succ fuel' =>
      have hfirst := (hstep last t).imp (A := Short (fuel + 1) (fuel' + 1)) fun _ _ => trivial
      refine hfirst.bindTo (fun x s => ∀ a ∈ x, Short fuel fuel' s) ?_ fun x => ?_
      · rintro s x s' hs hrun a rfl
        have hlt := hless hrun
        exact ⟨by have := hs.left; omega, by have := hs.right; omega⟩
      · cases x with
        | none => exact .pure (by rw [hnil]; rfl)
        | some a =>
          refine ((ih fuel' _ _).imp fun s hs => hs a rfl).bind fun as => .pure ?_
          rw [hcons]
          rfl

theorem many_loads {step : Parser (Option α)} {step' : β → Loader (Option β)}
    {m : β → α → Store.Storing β} (ms : β → List α → Store.Storing (List β))
    (hstep : ∀ last t, Loads finish Anywhere d d t step (step' last) (stored (m last) t))
    (hless : ∀ {s a s'}, step s = .ok (some a) s' → s'.rest.length < s.rest.length)
    (hnil : ∀ last, ms last [] = Pure.pure [])
    (hcons : ∀ last a as, ms last (a :: as) = do
      let b ← m last a
      return b :: (← ms b as)) (first : β) :
    Loads finish A d d t (Parser.many step) (many step' first) (ms first · t) :=
  fun s c _ hc => repeatStep_loads hstep hless hnil hcons _ _ first t s c
    ⟨Nat.lt_succ_self _, Nat.lt_succ_of_le hc.length_le⟩ hc

section

variable {item : Parser α} {item' : Loader β} {m : α → Store.Storing β}
  {ms : List α → Store.Storing (List β)} (o : ParserOptions) {b : Parser.Brackets}
  (hitem : ∀ t, Loads finish Anywhere d d t item item' (m · t))
  (hle : ∀ {s a s'}, item s = .ok a s' → s'.rest.length ≤ s.rest.length)
  (hnil : ms [] = Pure.pure []) (hcons : ∀ a as, ms (a :: as) = do return (← m a) :: (← ms as))

include hitem hle hnil hcons

theorem itemsFrom_loads : ∀ fuel fuel' t, Loads finish (Short fuel fuel') d d t
    (Parser.itemsFrom o b item fuel) (itemsFrom o b item' fuel') (ms · t) := by
  intro fuel
  induction fuel with
  | zero => exact fun _ _ _ _ hs => absurd hs.left (Nat.not_lt_zero _)
  | succ fuel ih =>
    intro fuel' t
    cases fuel' with
    | zero => exact fun _ _ hs => absurd hs.right (Nat.not_lt_zero _)
    | succ fuel' =>
      have hkeep {s s' : ParseState} (hs : Short (fuel + 1) (fuel' + 1) s)
          (hlength : s'.rest.length ≤ s.rest.length) : Short (fuel + 1) (fuel' + 1) s' :=
        ⟨Nat.lt_of_le_of_lt hlength hs.left, Nat.lt_of_le_of_lt hlength hs.right⟩
      have hfirst := (hitem t).imp (A := Short (fuel + 1) (fuel' + 1)) fun _ _ => trivial
      refine hfirst.bindTo (fun _ => Short (fuel + 1) (fuel' + 1))
        (fun hs hrun => hkeep hs (hle hrun)) fun a => ?_
      refine (innerBlank_loads o b.place).bindTo (fun _ => Short (fuel + 1) (fuel' + 1))
        (fun hs hrun => hkeep hs (Parser.innerBlank_takes (o := o) hrun).length_le) fun _ => ?_
      refine next_loads.bindTo (fun x s => x.kind ≠ .eof → Short fuel fuel' s) ?_ fun x => ?_
      · intro s x s' hs hrun hx
        obtain ⟨rfl, rfl⟩ := Parser.next_eq hrun
        have hlength := congrArg List.length (Parser.rest_of_head hx)
        rw [List.length_cons] at hlength
        have htail : (s.see s.head).advance.rest.length = s.rest.tail.length := rfl
        exact ⟨by have := hs.left; omega, by have := hs.right; omega⟩
      refine .ite (fun hcomma => ?_) fun _ =>
        .ite (fun _ => .pure ?_) fun _ => unexpected_loads x b.expected
      · refine (innerBlank_loads o b.place).bindTo (fun _ => Short fuel fuel') ?_ fun _ => ?_
        · intro s _ s' hs hrun
          have hshort := hs (by rw [hcomma]; decide)
          have hlength := (Parser.innerBlank_takes (o := o) hrun).length_le
          exact ⟨Nat.lt_of_le_of_lt hlength hshort.left, Nat.lt_of_le_of_lt hlength hshort.right⟩
        · refine (ih fuel' _).bind fun as => .pure ?_
          rw [hcons]
          rfl
      · rw [hcons, hnil]
        rfl

theorem delimited_loads (hclose : b.close ≠ .eof) :
    Loads finish A d d t (Parser.delimited o b item) (delimited o b item') (ms · t) := by
  refine (innerBlank_loads o b.place).step fun _ => (eat_loads b.close hclose).step fun x => ?_
  cases x with
  | some _ => exact .pure (by rw [hnil]; rfl)
  | none =>
    exact fun s c _ hc => itemsFrom_loads o hitem hle hnil hcons _ _ t s c
      ⟨Nat.lt_succ_self _, Nat.lt_succ_of_le hc.length_le⟩ hc

end

/-! ## Nodes -/

/-- A node for a part of the tree that has been read. -/
theorem Loads.add {k : NodeSort} {put : Store.Storing (Handle k)} {a : α} {R : α → Handle k × Store}
    (h : put t = R a) : Loads finish A d d t (Pure.pure a) (Loader.add id put) R := by
  intro s c _ hc
  obtain rfl := hc.store
  refine .ok ?_
  rw [← h]
  exact ⟨rfl, hc.tokens, hc.finish, hc.lastEnd, hc.log, hc.reports, hc.silent, hc.peeked, hc.depth,
    rfl⟩

/-- What the productions one level down do. -/
structure Inner.Loads (inner' : Inner) (finish : Position) (d : Nat) (inner : Parser.Inner) :
    Prop where
  expression : ∀ t, Loader.Loads finish Anywhere d d t inner.expression inner'.expression
    (Store.storeExpression · t)
  comparable : ∀ t, Loader.Loads finish Anywhere d d t inner.comparable inner'.comparable
    (Store.storeComparable · t)

section Productions

open Store
open Filter.Parser (inCall inArray inStruct)

variable {o : ParserOptions} {inner : Parser.Inner} {inner' : Inner}

theorem checkName_loads (path : List Leaf) (what : String) :
    Loads finish A d d t (Parser.checkName path what) (checkName path what) (·, t) := by
  unfold Parser.checkName checkName
  cases path.find? fun l => !l.isIdentifier with
  | some l => exact fail_loads _ _
  | none => exact .pure rfl

theorem dottedLeaf_loads :
    Loads finish A d d t Parser.dottedLeaf dottedLeaf (stored (fun l => pure l) t) :=
  .peekKind fun _ => .ite (fun _ => next_loads.step fun _ => next_loads.step fun x =>
    (leaf_loads x _).step fun _ => .pure rfl) fun _ => .pure rfl

theorem member_loads (start : Position) (value : Leaf) (fields : List Leaf) :
    Loads finish A d d t
      (do return Comparable.member ⟨← Parser.spanFrom start, value, fields⟩)
      (member id start value fields) (storeComparable · t) := by
  refine (spanFrom_loads start).step fun span => ?_
  exact (Loads.add (a := ()) (R := fun _ => putMember ⟨span, value, fields⟩ t) rfl).bind
    (f := fun _ => pure (Comparable.member ⟨span, value, fields⟩)) fun _ => .pure rfl

theorem comparator_loads (x : Token) : Loads finish (fun s => s.head = x) d d t
    (Parser.comparator? o x) (comparator? o x) (·, t) := by
  refine .ite (fun hin => .ite (fun _ => ?_) fun _ => .pure rfl) fun _ => .pure rfl
  refine (keywordIsOperator_loads fun s hs => ?_).step fun _ => ?_
  · rw [hs, hin]
    rfl
  · exact .ite (fun _ => .pure rfl) fun _ => .pure rfl

theorem unary_loads : Loads finish A d d t (Parser.unary o) (unary o) (·, t) := by
  refine .peekKind fun k => ?_
  cases k
  case notWord =>
    refine (keywordIsOperator_loads fun s hs => by rw [hs]; rfl).step fun _ => ?_
    refine .ite (fun _ => ?_) fun _ => .pure rfl
    exact next_loads.step fun _ => skipBlank_loads.step fun blank =>
      (requireSpace_loads o blank _).step fun _ => .pure rfl
  case minus =>
    exact next_loads.step fun _ => (innerBlank_loads o _).step fun _ => .pure rfl
  all_goals exact .pure rfl

section

variable (hi : inner'.Loads finish d inner)

include hi

theorem composite_loads :
    Loads finish A d d t (Parser.composite inner) (composite id inner') (storeComposite · t) :=
  (expect_loads _ _).step fun opening => skipBlank_loads.step fun _ =>
    ((hi.expression t).imp fun _ _ => trivial).bind fun _ => skipBlank_loads.step fun _ =>
      (expect_loads _ _).step fun _ => (spanFrom_loads opening.pos).step fun _ => .add rfl

theorem arg_loads :
    Loads finish A d d t (Parser.arg inner) (arg id inner') (storeArg · t) :=
  .peekKind fun _ => .ite (fun _ => (composite_loads hi).bind fun _ => .pure rfl)
    fun _ => ((hi.comparable t).imp fun _ _ => trivial).bind fun _ => .pure rfl

theorem call_loads (hr : inner.Read o) (name : List Leaf) (start : Position) :
    Loads finish A d d t (Parser.call o inner name start) (call o id inner' name start)
      (storeCall · t) :=
  (expect_loads _ _).step fun _ =>
    (delimited_loads o (fun _ => arg_loads hi) (fun h => (Parser.arg_reads hr h).takes.length_le)
      rfl (fun _ _ => rfl) (by decide)).bind fun _ => (spanFrom_loads start).step fun _ => .add rfl

theorem arrayLiteral_loads (hr : inner.Read o) :
    Loads finish A d d t (Parser.arrayLiteral o inner) (arrayLiteral o id inner')
      (storeArray · t) :=
  (expect_loads _ _).step fun opening =>
    (delimited_loads o hi.comparable (fun h => (hr.comparable h).takes.length_le)
      rfl (fun _ _ => rfl) (by decide)).bind fun _ =>
        (spanFrom_loads opening.pos).step fun _ => .add rfl

theorem structEntry_loads :
    Loads finish A d d t (Parser.structEntry o inner) (structEntry o inner') (storeEntry · t) :=
  next_loads.step fun x => (leaf_loads x _).step fun _ => (innerBlank_loads o _).step fun _ =>
    (expect_loads _ _).step fun _ => (innerBlank_loads o _).step fun _ =>
      (hi.comparable t).bind fun _ => .pure rfl

theorem structLiteral_loads (hr : inner.Read o) (name : List Leaf) (start : Position) :
    Loads finish A d d t (Parser.structLiteral o inner name start)
      (structLiteral o id inner' name start) (storeStruct · t) :=
  (expect_loads _ _).step fun _ =>
    (delimited_loads o (fun _ => structEntry_loads hi)
      (fun h => (Parser.structEntry_reads hr h).takes.length_le)
      rfl (fun _ _ => rfl) (by decide)).bind fun _ => (spanFrom_loads start).step fun _ => .add rfl

theorem nameRun_loads (hr : inner.Read o) :
    Loads finish A d d t (Parser.nameRun o inner) (nameRun o id inner') (storeComparable · t) := by
  refine next_loads.step fun first => (leaf_loads first _).step fun value => ?_
  have hfields : Loads finish Anywhere d d t (Parser.many Parser.dottedLeaf)
      (many (fun _ => dottedLeaf) value) (·, t) :=
    many_loads (fun _ => pure) (fun _ _ => dottedLeaf_loads) Parser.dottedLeaf_less
      (fun _ => rfl) (fun _ _ _ => rfl) value
  refine hfields.step fun fields => .peekKind fun k => ?_
  cases k
  case leftParen =>
    exact (checkName_loads _ _).step fun _ =>
      (call_loads hi hr (value :: fields) first.pos).bind fun _ => .pure rfl
  case leftBrace =>
    refine .ite (fun _ => ?_) fun _ => member_loads _ _ _
    exact (checkName_loads _ _).step fun _ =>
      (structLiteral_loads hi hr (value :: fields) first.pos).bind fun _ => .pure rfl
  all_goals exact member_loads _ _ _

theorem comparableBody_loads (hr : inner.Read o) :
    Loads finish A d d t (Parser.comparableBody o inner) (comparableBody o id inner')
      (storeComparable · t) :=
  .peek fun x => .ite (fun _ => (arrayLiteral_loads hi hr).bind fun _ => .pure rfl) fun _ =>
    .ite (fun _ => (structLiteral_loads hi hr [] x.pos).bind fun _ => .pure rfl) fun _ =>
      .ite (fun _ => nameRun_loads hi hr) fun _ => next_loads.step fun _ => unexpected_loads x _

theorem restriction_loads :
    Loads finish A d d t (Parser.restriction o inner) (restriction o id inner')
      (storeRestriction · t) := by
  refine .peek fun first => ((hi.comparable t).imp fun _ _ => trivial).bind fun _ =>
    .checkpoint fun saved m hm => skipBlank_loads.step fun _ => .peek fun x =>
      (comparator_loads x).step fun comparator => ?_
  cases comparator with
  | some comparator =>
    exact next_loads.step fun _ => skipBlank_loads.step fun _ => (arg_loads hi).bind fun _ =>
      (spanFrom_loads first.pos).step fun _ => .add rfl
  | none => exact (restore_loads hm).step fun _ => (spanFrom_loads first.pos).step fun _ => .add rfl

theorem simple_loads :
    Loads finish A d d t (Parser.simple o inner) (simple o id inner') (storeSimple · t) :=
  .peekKind fun _ => .ite (fun _ => (composite_loads hi).bind fun _ => .pure rfl)
    fun _ => (restriction_loads hi).bind fun _ => .pure rfl

theorem term_loads :
    Loads finish A d d t (Parser.term o inner) (term o id inner') (storeTerm · t) :=
  .peek fun first => unary_loads.step fun _ => (simple_loads hi).bind fun _ =>
    (spanFrom_loads first.pos).step fun _ => .add rfl

/-- The term behind a handle, with an `OR` behind it. -/
def linked (h : Handle NodeSort.term) (pos : Position) (t : Store) : Store :=
  { t with terms := t.terms.modify h fun n => { n with orPos := some pos } }

omit hi in
/-- A step that only changes the store. -/
theorem Loads.note {note : Loader Unit} {f : Store → Store} {p : Parser α} {g : Unit → Loader β}
    {R : α → β × Store} (hnote : ∀ c, note c = .ok () { c with store := f c.store })
    (h : Loads finish A d d' (f t) p (g ()) R) : Loads finish A d d' t p (note >>= g) R := by
  intro s c hs hc
  change Agree _ (p s) (EStateM.bind note g c)
  rw [EStateM.bind, hnote]
  refine h s _ hs ?_
  exact ⟨hc.tokens, hc.finish, hc.lastEnd, hc.log, hc.reports, hc.silent, hc.peeked, hc.depth,
    congrArg f hc.store⟩

/-- Whether an operator word came, and the store with its place noted. -/
def joined (f : Position → Store → Store) (t : Store) : Option Position → Bool × Store
  | none => (false, t)
  | some pos => (true, f pos t)

omit hi in
theorem joiner_loads {word : Kind} (hword : word.isKeyword = true) (before after : String)
    {note : Position → Loader Unit} {f : Position → Store → Store}
    (hnote : ∀ pos c, note pos c = .ok () { c with store := f pos c.store }) :
    Loads finish A d d t (Parser.joiner o word before after) (joiner o word before after note)
      (joined f t) := by
  refine .checkpoint fun saved m hm => skipBlank_loads.step fun blank => .peekKind fun k => ?_
  refine .ite (fun hk => ?_) fun _ => (restore_loads hm).step fun _ => .pure rfl
  refine (keywordIsOperator_loads fun s hs => by rw [hs, hk, hword]).step fun _ => ?_
  refine .ite (fun _ => ?_) fun _ => (restore_loads hm).step fun _ => .pure rfl
  exact (requireSpace_loads o blank before).step fun _ => next_loads.step fun x =>
    .note (hnote x.pos) (skipBlank_loads.step fun blank =>
      (requireSpace_loads o blank after).step fun _ => .pure rfl)

/-- A term stored behind another one. -/
def linkTerm (last : Handle NodeSort.term) (x : Position × Term) : Storing (Handle NodeSort.term) :=
  fun t => storeTerm x.2 (linked last x.1 t)

theorem orTerm_loads (last : Handle NodeSort.term) :
    Loads finish A d d t (Parser.orTerm o inner) (orTerm o id inner' last)
      (stored (linkTerm last) t) := by
  refine (joiner_loads rfl _ _ (f := linked last) fun _ _ => rfl).bind fun x => ?_
  cases x with
  | some pos => exact (term_loads hi).bind fun _ => .pure rfl
  | none => exact .pure rfl

end

/-- Terms stored behind another one, each when the `OR` before it has been noted. -/
def linkOthers : Handle NodeSort.term → List (Position × Term) →
    Storing (List (Handle NodeSort.term))
  | _, [] => pure []
  | last, x :: xs => do
    let h ← linkTerm last x
    return h :: (← linkOthers h xs)

/-- Noting an `OR` behind the term that was stored last is storing the term with it. -/
theorem linked_storeTerm (x : Term) (pos : Position) (t : Store) :
    storeTerm { x with orPos := some pos } t =
      ((storeTerm x t).1, linked (storeTerm x t).1 pos (storeTerm x t).2) := by
  obtain ⟨span, unary, simple, _⟩ := x
  simp only [storeTerm, run_bind, linked, putTerm, Arena.modify_alloc]
  rfl

theorem storeTerms_linkTerms (first : Term) (others : List (Position × Term)) (t : Store) :
    storeTerms (Parser.linkTerms first others) t =
      ((storeTerm first t).1 :: (linkOthers (storeTerm first t).1 others (storeTerm first t).2).1,
        (linkOthers (storeTerm first t).1 others (storeTerm first t).2).2) := by
  induction others generalizing first t with
  | nil => rfl
  | cons x xs ih =>
    obtain ⟨pos, x⟩ := x
    simp only [Parser.linkTerms, storeTerms, run_bind, run_pure, linked_storeTerm, ih]
    rfl

section

variable (hi : inner'.Loads finish d inner) (hr : inner.Read o)

include hi hr

theorem factor_loads :
    Loads finish A d d t (Parser.factor o inner) (factor o id inner') (storeFactor · t) := by
  refine .peek fun start => (term_loads hi).bind fun first => ?_
  refine (many_loads (m := linkTerm) linkOthers (fun last _ => orTerm_loads hi last)
    (Parser.orTerm_less hr) (fun _ => rfl) (fun _ _ _ => rfl) _).bind fun others => ?_
  refine (spanFrom_loads start.pos).step fun span => .add ?_
  simp only [storeFactor, run_bind, storeTerms_linkTerms]

theorem nextFactor_loads :
    Loads finish A d d t (Parser.nextFactor o inner) (nextFactor o id inner')
      (stored storeFactor t) := by
  refine .checkpoint fun saved m hm => skipBlank_loads.step fun blank => ?_
  cases blank with
  | none => exact .pure rfl
  | some blank =>
    refine (startsFactor_loads o).step fun _ => .ite (fun _ => ?_) fun _ =>
      (restore_loads hm).step fun _ => .pure rfl
    exact (requireSpace_loads o _ _).step fun _ => (factor_loads hi hr).bind fun _ => .pure rfl

theorem sequence_loads :
    Loads finish A d d t (Parser.sequence o inner) (sequence o id inner') (storeSequence · t) :=
  .peek fun start => (factor_loads hi hr).bind fun _ =>
    (many_loads (fun _ => storeFactors) (fun _ _ => nextFactor_loads hi hr)
      (Parser.nextFactor_less hr) (fun _ => rfl) (fun _ _ _ => rfl) _).bind fun _ =>
      (spanFrom_loads start.pos).step fun _ => .add rfl

theorem andSequence_loads :
    Loads finish A d d t (Parser.andSequence o inner) (andSequence o id inner')
      (stored storeSequence t) := by
  refine (joiner_loads rfl _ _ (f := fun _ t => t) fun _ _ => rfl).bind fun x => ?_
  cases x with
  | some pos => exact (sequence_loads hi hr).bind fun _ => .pure rfl
  | none => exact .pure rfl

end

theorem leave_loads {p : Parser α} {g : Unit → Loader β} {R : α → β × Store}
    (h : Loads finish A d d' t p (g ()) R) : Loads finish A (d + 1) d' t p (leave >>= g) R :=
  fun s _ hs hc => h s _ hs ⟨hc.tokens, hc.finish, hc.lastEnd, hc.log, hc.reports, hc.silent,
    hc.peeked, congrArg (· - 1) hc.depth, hc.store⟩

/-- The level that has been entered is left before the span is taken. -/
theorem expressionBody_loads (hi : inner'.Loads finish (d + 1) inner) (hr : inner.Read o) :
    Loads finish A (d + 1) d t (Parser.expressionBody o inner) (expressionBody o id inner')
      (storeExpression · t) :=
  .peek fun start => (sequence_loads hi hr).bind fun _ =>
    (many_loads (fun _ => storeSequences) (fun _ _ => andSequence_loads hi hr)
      (Parser.andSequence_less hr) (fun _ => rfl) (fun _ _ _ => rfl) _).bind fun _ =>
      leave_loads ((spanFrom_loads start.pos).step fun _ => .add rfl)

end Productions

/-! ## Nesting -/

section

variable {o : ParserOptions}

theorem enter_loads (hd : d < o.maxDepth) {p : Parser α} {g : Unit → Loader β} {R : α → β × Store}
    (h : Loads finish A (d + 1) d' t p (g ()) R) :
    Loads finish A d d' t p (enter o >>= g) R := by
  intro s c hs hc
  have hrun : enter o c = .ok () { c with depth := c.depth + 1 } :=
    if_neg (Nat.not_lt.2 (hc.depth ▸ hd))
  change Agree _ (p s) (EStateM.bind (enter o) g c)
  rw [EStateM.bind, hrun]
  refine h s _ hs ?_
  exact ⟨hc.tokens, hc.finish, hc.lastEnd, hc.log, hc.reports, hc.silent, hc.peeked,
    congrArg (· + 1) hc.depth, hc.store⟩

/-- The last level has been used up. -/
theorem tooDeep_loads (hd : d = o.maxDepth) {g : Unit → Loader β} {R : α → β × Store} :
    Loads finish A d d' t (Parser.tooDeep o) (enter o >>= g) R := by
  intro s c hs hc
  have hdepth : o.maxDepth < c.depth + 1 := by
    rw [hc.depth, hd]
    exact Nat.lt_succ_self _
  have hrun : enter o c =
      fail s.head.pos (.tooDeep o.maxDepth) { c with depth := c.depth + 1 } := by
    rw [← hc.position]
    exact if_pos hdepth
  change Agree _ _ (EStateM.bind (enter o) g c)
  rw [EStateM.bind, hrun]
  refine .error ?_
  have hreports := hc.reports
  simp only [LoadState.allReports, hc.silent, List.append_nil, List.nil_append] at hreports ⊢
  rw [hreports]

theorem leave_after_loads {p : Parser α} {q : Loader β} {R : α → β × Store}
    (h : Loads finish A d (d' + 1) t p q R) :
    Loads finish A d d' t p
      (do
        let b ← q
        leave
        return b) R := by
  rw [← bind_pure p]
  exact h.bind fun _ => leave_loads (.pure rfl)

/-- Levels entered and levels left make up the limit. -/
theorem nested_loads : ∀ levels d, levels + d = o.maxDepth →
    (⟨expression o id (levels + 1), comparable o id (levels + 1)⟩ : Inner).Loads finish d
      (Parser.innerAt o levels) := by
  intro levels
  induction levels with
  | zero =>
    intro d hd
    rw [Nat.zero_add] at hd
    exact ⟨fun _ => tooDeep_loads hd, fun _ => tooDeep_loads hd⟩
  | succ levels ih =>
    intro d hd
    have hinner := ih (d + 1) (by omega)
    have hread := Parser.innerAt_read o levels
    exact ⟨fun _ => enter_loads (by omega) (expressionBody_loads hinner hread),
      fun _ => enter_loads (by omega) (leave_after_loads (comparableBody_loads hinner hread))⟩

/-- What a whole text leaves in an empty store. -/
def filled (t : Store) : Option Expression → Unit × Store
  | none => ((), t)
  | some e =>
    ((), { (Store.storeExpression e t).2 with root := some (Store.storeExpression e t).1 })

theorem filter_loads : Loads finish A 0 0 t (Parser.filter o) (filter o id) (filled t) := by
  have hroot : Loads finish Anywhere 0 0 t (Parser.expression o o.maxDepth)
      (expression o id (o.maxDepth + 1)) (Store.storeExpression · t) :=
    (nested_loads o.maxDepth 0 rfl).expression t
  refine skipBlank_loads.step fun _ => .peekKind fun k => .ite (fun _ => .pure rfl) fun _ => ?_
  refine (hroot.imp fun _ _ => trivial).bind fun e => skipBlank_loads.step fun _ =>
    next_loads.step fun x => .ite (fun _ => ?_) fun _ => unexpected_loads x _
  intro s c _ hc
  have hcount : c.lexer.errorCount = s.log.count := congrArg FaultLog.count hc.log
  change Agree _
    ((if 0 < s.log.count then throw (.invalidSyntax s.head.pos) else pure (some e) : Parser _) s)
    ((if 0 < c.lexer.errorCount then throw (.invalidSyntax c.lexer.position)
      else set { c with store.root := some (Store.storeExpression e t).1 } : Loader Unit) c)
  rw [hcount, hc.position]
  by_cases hfaults : 0 < s.log.count
  · rw [if_pos hfaults, if_pos hfaults]
    exact .error hc.reports
  · rw [if_neg hfaults, if_neg hfaults]
    refine .ok ⟨rfl, hc.tokens, hc.finish, hc.lastEnd, hc.log, hc.reports, hc.silent, hc.peeked,
      hc.depth, ?_⟩
    simp only [hc.store, filled]

end

end Loader

namespace Store

/-- Reading into a store is reading the tree and storing it: it gives the store that holds the tree,
or fails alike, with the same reports. -/
theorem reparseReporting_eq (s : Store) (o : ParserOptions) (input : String) :
    s.reparseReporting id o input =
      ((parse o input).map s.load, (parseReporting o input).2) := by
  have hstart : Loader.Abreast (endOf input) 0 s.release (.ofString input)
      { lexer := .ofString input, store := s.release } :=
    ⟨rfl, rfl, rfl, rfl, rfl, rfl, fun hpeeked => absurd hpeeked Bool.false_ne_true, rfl, rfl⟩
  have hrun := Loader.filter_loads (o := o) (A := Loader.Anywhere) _ _ trivial hstart
  unfold reparseReporting parse parseReporting
  generalize Parser.filter o (.ofString input) = x,
    Loader.filter o id { lexer := .ofString input, store := s.release } = y at hrun
  cases hrun with
  | @ok root _ _ _ h =>
    obtain ⟨-, h⟩ := h
    simp only [h.reports, h.store, Except.map]
    cases root <;> rfl
  | error h => simp only [h, Except.map]

theorem reparse_eq (s : Store) (o : ParserOptions) (input : String) :
    s.reparse o input = (parse o input).map s.load :=
  congrArg Prod.fst (s.reparseReporting_eq o input)

/-- A store that was read into holds the tree of the text. -/
theorem reparse_ok {before store : Store} {o : ParserOptions} {input : String} :
    before.reparse o input = .ok store ↔ ∃ x, parse o input = .ok x ∧ before.load x = store := by
  rw [reparse_eq]
  cases parse o input with
  | error e => simp [Except.map]
  | ok x => simp [Except.map]

end Store

end ListQuery.Filter
