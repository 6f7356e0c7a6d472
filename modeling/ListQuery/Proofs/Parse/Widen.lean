/-
Options that take more. Two runs of the grammar under different options are followed side by side:
where the first one succeeds, the second one goes through the same states to the same result
(`Parser.Widens`). The options part the runs in two kinds of places only. Where blanks are checked, a
run that does not check them goes on as the one whose check succeeds. Where the options say whether a
bracket or a brace starts a literal, the first run has a place for all brackets and braces of the
text, because it takes them all in the end (`parse_admits`). Main statement:
`Store.reparse_widen`.
-/
import ListQuery.Proofs.Parse.Loading
import ListQuery.Proofs.Parse.Takes

namespace ListQuery.Filter

/-- The second options check no more than the first and have every literal that the first have; in all
else they are the same. -/
structure ParserOptions.Within (o o' : ParserOptions) : Prop where
  strict : o'.strictWhitespace = true → o.strictWhitespace = true
  arrays : o.enableArrays = true → o'.enableArrays = true
  structs : o.enableStructs = true → o'.enableStructs = true
  isIn : o'.enableIn = o.enableIn
  depth : o'.maxDepth = o.maxDepth

instance (o o' : ParserOptions) : Decidable (o.Within o') :=
  decidable_of_iff
    ((o'.strictWhitespace = true → o.strictWhitespace = true) ∧
      (o.enableArrays = true → o'.enableArrays = true) ∧
      (o.enableStructs = true → o'.enableStructs = true) ∧
      o'.enableIn = o.enableIn ∧ o'.maxDepth = o.maxDepth)
    ⟨fun h => ⟨h.1, h.2.1, h.2.2.1, h.2.2.2.1, h.2.2.2.2⟩,
      fun h => ⟨h.strict, h.arrays, h.structs, h.isIn, h.depth⟩⟩

/-- The grammar has a place for all tokens that are left. -/
def ParseState.Admitted (o : ParserOptions) (s : ParseState) : Prop := ∀ t ∈ s.rest, o.Admits t.kind

namespace ParseState.Admitted

variable {o : ParserOptions} {s : ParseState}

theorem head (h : s.Admitted o) : o.Admits s.head.kind := by
  unfold ParseState.head
  cases hr : s.rest with
  | nil =>
    have heof : Kind.eof ≠ .leftBracket ∧ Kind.eof ≠ .leftBrace := by decide
    exact .plain heof
  | cons t ts => exact h t (hr ▸ List.mem_cons_self)

theorem advance (h : s.Admitted o) : s.advance.Admitted o := fun t ht => h t (List.mem_of_mem_tail ht)

end ParseState.Admitted

namespace Parser

variable {α β : Type} {o o' : ParserOptions}

/-- Where one parser succeeds on tokens that are admitted, the other does the same, and the result has
a property. -/
def Widens (o : ParserOptions) (P : α → Prop) (p q : Parser α) : Prop :=
  ∀ s a s', s.Admitted o → p s = .ok a s' → q s = .ok a s' ∧ s'.Admitted o ∧ P a

namespace Widens

variable {P : α → Prop} {Q : β → Prop}

theorem bind {p q : Parser α} {f g : α → Parser β} (hp : Widens o P p q)
    (hf : ∀ a, P a → Widens o Q (f a) (g a)) : Widens o Q (p >>= f) (q >>= g) := by
  intro s b s' hs h
  obtain ⟨a, s₁, h₁, h₂⟩ := bind_ok.1 h
  obtain ⟨hq, hs₁, ha⟩ := hp s a s₁ hs h₁
  obtain ⟨hg, hs', hb⟩ := hf a ha s₁ b s' hs₁ h₂
  exact ⟨bind_ok.2 ⟨a, s₁, hq, hg⟩, hs', hb⟩

theorem of_not_ok {p q : Parser α} (h : ∀ {s a s'}, ¬ p s = .ok a s') : Widens o P p q :=
  fun _ _ _ _ hp => absurd hp h

end Widens

/-! ## Steps -/

/-- Nothing is said about the result. -/
abbrev Any : α → Prop := fun _ => True

theorem widens_pure (a : α) : Widens o Any (pure a) (pure a) := by
  intro s b s' hs h
  obtain ⟨rfl, rfl⟩ := pure_ok.1 h
  exact ⟨h, hs, trivial⟩

theorem widens_peek : Widens o (fun t => o.Admits t.kind) peek peek := by
  intro s t s' hs h
  obtain ⟨rfl, rfl⟩ := peek_ok h
  exact ⟨h, hs, hs.head⟩

theorem widens_peekKind : Widens o o.Admits peekKind peekKind := by
  intro s k s' hs h
  obtain ⟨rfl, rfl⟩ := peekKind_ok h
  exact ⟨h, hs, s.head_kind ▸ hs.head⟩

theorem widens_next : Widens o Any next next := by
  intro s t s' hs h
  obtain ⟨rfl, rfl⟩ := next_eq h
  exact ⟨h, ParseState.Admitted.advance hs, trivial⟩

theorem widens_eat (kind : Kind) : Widens o Any (eat kind) (eat kind) := by
  intro s t s' hs h
  refine ⟨h, ?_, trivial⟩
  unfold eat at h
  split at h
  · rw [← (EStateM.Result.ok.inj h).2]
    exact ParseState.Admitted.advance hs
  · rw [← (EStateM.Result.ok.inj h).2]
    exact hs

theorem widens_skipBlank : Widens o Any skipBlank skipBlank := widens_eat _

theorem widens_get : Widens o (ParseState.Admitted o) get get := by
  intro s saved s' hs h
  obtain ⟨rfl, rfl⟩ := get_ok.1 h
  exact ⟨h, hs, hs⟩

theorem widens_restore {saved : ParseState} (hsaved : saved.Admitted o) :
    Widens o Any (restore saved) (restore saved) := by
  intro s x s' hs h
  refine ⟨h, fun t ht => hsaved t ?_, trivial⟩
  rwa [(level_restore h).rest] at ht

theorem widens_spanFrom (start : Position) : Widens o Any (spanFrom start) (spanFrom start) := by
  intro s x s' hs h
  obtain rfl := spanFrom_ok h
  exact ⟨h, hs, trivial⟩

theorem widens_keywordIsOperator : Widens o Any keywordIsOperator keywordIsOperator := by
  intro s b s' hs h
  refine ⟨h, fun t ht => hs t ?_, trivial⟩
  rwa [(keeps_keywordIsOperator h).rest] at ht

theorem widens_fail {P : α → Prop} {q : Parser α} (pos : Position) (cause : SyntaxCause) :
    Widens o P (fail pos cause) q := .of_not_ok fail_ok

theorem widens_unexpected {P : α → Prop} {q : Parser α} (t : Token) (what : String) :
    Widens o P (unexpected t what) q := .of_not_ok unexpected_ok

theorem widens_expect (kind : Kind) (what : String) :
    Widens o Any (expect kind what) (expect kind what) := by
  refine widens_next.bind fun t _ => ?_
  split
  · exact widens_pure t
  · exact widens_unexpected t what

theorem widens_leaf (t : Token) (what : String) : Widens o Any (leaf t what) (leaf t what) := by
  unfold leaf
  split
  · exact widens_pure _
  · exact widens_unexpected t what

theorem widens_checkName (path : List Leaf) (what : String) :
    Widens o Any (checkName path what) (checkName path what) := by
  unfold checkName
  split
  · exact widens_fail _ _
  · exact widens_pure _

theorem widens_requireSpace (h : o.Within o') (blank : Option Token) (place : String) :
    Widens o Any (requireSpace o blank place) (requireSpace o' blank place) := by
  intro s x s' hs hok
  obtain rfl := requireSpace_eq hok
  refine ⟨?_, hs, trivial⟩
  cases hstrict : o'.strictWhitespace with
  | true =>
    unfold requireSpace at hok ⊢
    rw [h.strict hstrict] at hok
    rwa [hstrict]
  | false =>
    unfold requireSpace
    rw [hstrict]
    rfl

theorem widens_innerBlank (h : o.Within o') (place : String) :
    Widens o Any (innerBlank o place) (innerBlank o' place) := by
  refine widens_skipBlank.bind fun blank _ => ?_
  cases blank with
  | none => exact widens_pure ()
  | some t =>
    cases hstrict : o'.strictWhitespace with
    | true =>
      rw [h.strict hstrict]
      exact widens_fail _ _
    | false =>
      cases o.strictWhitespace with
      | true => exact widens_fail _ _
      | false => exact widens_pure ()

theorem widens_startsFactor (h : o.Within o') :
    Widens o Any (startsFactor o) (startsFactor o') := by
  refine widens_peekKind.bind fun k hk => ?_
  split
  case h_1 | h_2 => exact widens_keywordIsOperator.bind fun _ _ => widens_pure _
  case h_6 =>
    rw [hk.arrays rfl, h.arrays (hk.arrays rfl)]
    exact widens_pure true
  case h_7 =>
    rw [hk.structs rfl, h.structs (hk.structs rfl)]
    exact widens_pure true
  all_goals exact widens_pure _

theorem widens_comparator? (h : o.Within o') (t : Token) :
    Widens o Any (comparator? o t) (comparator? o' t) := by
  unfold comparator?
  rw [h.isIn]
  split
  · split
    · refine widens_keywordIsOperator.bind fun b _ => ?_
      split <;> exact widens_pure _
    · exact widens_pure _
  · exact widens_pure _

theorem widens_repeatStep {step step' : Parser (Option α)} (h : Widens o Any step step') :
    ∀ fuel, Widens o Any (repeatStep step fuel) (repeatStep step' fuel)
  | 0 => widens_pure []
  | fuel + 1 => by
    refine h.bind fun a _ => ?_
    cases a with
    | none => exact widens_pure []
    | some a => exact (widens_repeatStep h fuel).bind fun _ _ => widens_pure _

theorem widens_many {step step' : Parser (Option α)} (h : Widens o Any step step') :
    Widens o Any (many step) (many step') :=
  fun s => widens_repeatStep h (s.rest.length + 1) s

theorem widens_itemsFrom (h : o.Within o') (b : Brackets) {item item' : Parser α}
    (hitem : Widens o Any item item') :
    ∀ fuel, Widens o Any (itemsFrom o b item fuel) (itemsFrom o' b item' fuel)
  | 0 => widens_pure []
  | fuel + 1 => by
    refine hitem.bind fun a _ => (widens_innerBlank h b.place).bind fun _ _ =>
      widens_next.bind fun t _ => ?_
    split
    · exact (widens_innerBlank h b.place).bind fun _ _ =>
        (widens_itemsFrom h b hitem fuel).bind fun _ _ => widens_pure _
    · split
      · exact widens_pure _
      · exact widens_unexpected t b.expected

theorem widens_delimited (h : o.Within o') (b : Brackets) {item item' : Parser α}
    (hitem : Widens o Any item item') :
    Widens o Any (delimited o b item) (delimited o' b item') := by
  refine (widens_innerBlank h b.place).bind fun _ _ => (widens_eat b.close).bind fun t _ => ?_
  cases t with
  | some t => exact widens_pure []
  | none => exact fun s => widens_itemsFrom h b hitem (s.rest.length + 1) s

/-! ## Productions -/

/-- The parsers one level of nesting down, side by side. -/
structure Inner.Widen (o : ParserOptions) (inner inner' : Inner) : Prop where
  expression : Widens o Any inner.expression inner'.expression
  comparable : Widens o Any inner.comparable inner'.comparable

variable {inner inner' : Inner}

theorem widens_composite (hi : inner.Widen o inner') :
    Widens o Any (composite inner) (composite inner') :=
  (widens_expect _ _).bind fun _ _ => widens_skipBlank.bind fun _ _ =>
    hi.expression.bind fun _ _ => widens_skipBlank.bind fun _ _ =>
    (widens_expect _ _).bind fun _ _ => (widens_spanFrom _).bind fun _ _ => widens_pure _

theorem widens_arg (hi : inner.Widen o inner') : Widens o Any (arg inner) (arg inner') := by
  refine widens_peekKind.bind fun k _ => ?_
  split
  · exact (widens_composite hi).bind fun _ _ => widens_pure _
  · exact hi.comparable.bind fun _ _ => widens_pure _

theorem widens_dottedLeaf : Widens o Any dottedLeaf dottedLeaf := by
  refine widens_peekKind.bind fun k _ => ?_
  split
  · exact widens_next.bind fun _ _ => widens_next.bind fun _ _ =>
      (widens_leaf _ _).bind fun _ _ => widens_pure _
  · exact widens_pure none

theorem widens_call (h : o.Within o') (hi : inner.Widen o inner') (name : List Leaf)
    (start : Position) : Widens o Any (call o inner name start) (call o' inner' name start) :=
  (widens_expect _ _).bind fun _ _ => (widens_delimited h inCall (widens_arg hi)).bind fun _ _ =>
    (widens_spanFrom start).bind fun _ _ => widens_pure _

theorem widens_arrayLiteral (h : o.Within o') (hi : inner.Widen o inner') :
    Widens o Any (arrayLiteral o inner) (arrayLiteral o' inner') :=
  (widens_expect _ _).bind fun _ _ => (widens_delimited h inArray hi.comparable).bind fun _ _ =>
    (widens_spanFrom _).bind fun _ _ => widens_pure _

theorem widens_structEntry (h : o.Within o') (hi : inner.Widen o inner') :
    Widens o Any (structEntry o inner) (structEntry o' inner') :=
  widens_next.bind fun _ _ => (widens_leaf _ _).bind fun _ _ =>
    (widens_innerBlank h _).bind fun _ _ => (widens_expect _ _).bind fun _ _ =>
    (widens_innerBlank h _).bind fun _ _ => hi.comparable.bind fun _ _ => widens_pure _

theorem widens_structLiteral (h : o.Within o') (hi : inner.Widen o inner') (name : List Leaf)
    (start : Position) :
    Widens o Any (structLiteral o inner name start) (structLiteral o' inner' name start) :=
  (widens_expect _ _).bind fun _ _ =>
    (widens_delimited h inStruct (widens_structEntry h hi)).bind fun _ _ =>
    (widens_spanFrom start).bind fun _ _ => widens_pure _

theorem widens_nameRun (h : o.Within o') (hi : inner.Widen o inner') :
    Widens o Any (nameRun o inner) (nameRun o' inner') := by
  refine widens_next.bind fun first _ => (widens_leaf first _).bind fun value _ =>
    (widens_many widens_dottedLeaf).bind fun fields _ => widens_peekKind.bind fun k hk => ?_
  split
  · exact (widens_checkName _ _).bind fun _ _ => (widens_call h hi _ _).bind fun _ _ =>
      widens_pure _
  · rw [hk.structs rfl, h.structs (hk.structs rfl)]
    exact (widens_checkName _ _).bind fun _ _ => (widens_structLiteral h hi _ _).bind fun _ _ =>
      widens_pure _
  · exact (widens_spanFrom _).bind fun _ _ => widens_pure _

theorem widens_comparableBody (h : o.Within o') (hi : inner.Widen o inner') :
    Widens o Any (comparableBody o inner) (comparableBody o' inner') := by
  refine widens_peek.bind fun t ht => ?_
  -- a bracket or a brace in front is one that both options have a literal for
  have hbracket : (t.kind = .leftBracket ∧ o'.enableArrays = true) ↔
      (t.kind = .leftBracket ∧ o.enableArrays = true) :=
    and_congr_right fun hk => iff_of_true (h.arrays (ht.arrays hk)) (ht.arrays hk)
  have hbrace : (t.kind = .leftBrace ∧ o'.enableStructs = true) ↔
      (t.kind = .leftBrace ∧ o.enableStructs = true) :=
    and_congr_right fun hk => iff_of_true (h.structs (ht.structs hk)) (ht.structs hk)
  simp only [hbracket, hbrace]
  split
  · exact (widens_arrayLiteral h hi).bind fun _ _ => widens_pure _
  split
  · exact (widens_structLiteral h hi [] t.pos).bind fun _ _ => widens_pure _
  split
  · exact widens_nameRun h hi
  · exact widens_next.bind fun _ _ => widens_unexpected t _

theorem widens_restriction (h : o.Within o') (hi : inner.Widen o inner') :
    Widens o Any (restriction o inner) (restriction o' inner') := by
  refine widens_peek.bind fun first _ => hi.comparable.bind fun comparable _ =>
    widens_get.bind fun saved hsaved => widens_skipBlank.bind fun _ _ =>
    widens_peek.bind fun t _ => (widens_comparator? h t).bind fun comparator _ => ?_
  cases comparator with
  | some comparator =>
    exact widens_next.bind fun _ _ => widens_skipBlank.bind fun _ _ =>
      (widens_arg hi).bind fun _ _ => (widens_spanFrom _).bind fun _ _ => widens_pure _
  | none =>
    exact (widens_restore hsaved).bind fun _ _ => (widens_spanFrom _).bind fun _ _ =>
      widens_pure _

theorem widens_unary (h : o.Within o') : Widens o Any (unary o) (unary o') := by
  refine widens_peekKind.bind fun k _ => ?_
  split
  · refine widens_keywordIsOperator.bind fun b _ => ?_
    split
    · exact widens_next.bind fun _ _ => widens_skipBlank.bind fun _ _ =>
        (widens_requireSpace h _ _).bind fun _ _ => widens_pure _
    · exact widens_pure none
  · exact widens_next.bind fun _ _ => (widens_innerBlank h _).bind fun _ _ => widens_pure _
  · exact widens_pure none

theorem widens_simple (h : o.Within o') (hi : inner.Widen o inner') :
    Widens o Any (simple o inner) (simple o' inner') := by
  refine widens_peekKind.bind fun k _ => ?_
  split
  · exact (widens_composite hi).bind fun _ _ => widens_pure _
  · exact (widens_restriction h hi).bind fun _ _ => widens_pure _

theorem widens_term (h : o.Within o') (hi : inner.Widen o inner') :
    Widens o Any (term o inner) (term o' inner') :=
  widens_peek.bind fun _ _ => (widens_unary h).bind fun _ _ =>
    (widens_simple h hi).bind fun _ _ => (widens_spanFrom _).bind fun _ _ => widens_pure _

theorem widens_joiner (h : o.Within o') (word : Kind) (before after : String) :
    Widens o Any (joiner o word before after) (joiner o' word before after) := by
  refine widens_get.bind fun saved hsaved => widens_skipBlank.bind fun blank _ =>
    widens_peekKind.bind fun k _ => ?_
  have back : Widens o Any (restore saved >>= fun _ => pure (none : Option Position))
      (restore saved >>= fun _ => pure none) :=
    (widens_restore hsaved).bind fun _ _ => widens_pure none
  split
  · refine widens_keywordIsOperator.bind fun b _ => ?_
    split
    · exact (widens_requireSpace h _ _).bind fun _ _ => widens_next.bind fun _ _ =>
        widens_skipBlank.bind fun _ _ => (widens_requireSpace h _ _).bind fun _ _ => widens_pure _
    · exact back
  · exact back

theorem widens_orTerm (h : o.Within o') (hi : inner.Widen o inner') :
    Widens o Any (orTerm o inner) (orTerm o' inner') := by
  refine (widens_joiner h _ _ _).bind fun pos _ => ?_
  cases pos with
  | some pos => exact (widens_term h hi).bind fun _ _ => widens_pure _
  | none => exact widens_pure none

theorem widens_factor (h : o.Within o') (hi : inner.Widen o inner') :
    Widens o Any (factor o inner) (factor o' inner') :=
  widens_peek.bind fun _ _ => (widens_term h hi).bind fun _ _ =>
    (widens_many (widens_orTerm h hi)).bind fun _ _ => (widens_spanFrom _).bind fun _ _ =>
    widens_pure _

theorem widens_nextFactor (h : o.Within o') (hi : inner.Widen o inner') :
    Widens o Any (nextFactor o inner) (nextFactor o' inner') := by
  refine widens_get.bind fun saved hsaved => widens_skipBlank.bind fun blank _ => ?_
  cases blank with
  | none => exact widens_pure none
  | some blank =>
    refine (widens_startsFactor h).bind fun b _ => ?_
    split
    · exact (widens_requireSpace h _ _).bind fun _ _ => (widens_factor h hi).bind fun _ _ =>
        widens_pure _
    · exact (widens_restore hsaved).bind fun _ _ => widens_pure none

theorem widens_sequence (h : o.Within o') (hi : inner.Widen o inner') :
    Widens o Any (sequence o inner) (sequence o' inner') :=
  widens_peek.bind fun _ _ => (widens_factor h hi).bind fun _ _ =>
    (widens_many (widens_nextFactor h hi)).bind fun _ _ => (widens_spanFrom _).bind fun _ _ =>
    widens_pure _

theorem widens_andSequence (h : o.Within o') (hi : inner.Widen o inner') :
    Widens o Any (andSequence o inner) (andSequence o' inner') := by
  refine (widens_joiner h _ _ _).bind fun pos _ => ?_
  cases pos with
  | some pos => exact (widens_sequence h hi).bind fun _ _ => widens_pure _
  | none => exact widens_pure none

theorem widens_expressionBody (h : o.Within o') (hi : inner.Widen o inner') :
    Widens o Any (expressionBody o inner) (expressionBody o' inner') :=
  widens_peek.bind fun _ _ => (widens_sequence h hi).bind fun _ _ =>
    (widens_many (widens_andSequence h hi)).bind fun _ _ => (widens_spanFrom _).bind fun _ _ =>
    widens_pure _

/-- On every level of nesting, by induction on the levels that are left. -/
theorem widen_levels (h : o.Within o') : ∀ levels,
    Inner.Widen o ⟨expression o levels, comparable o levels⟩
      ⟨expression o' levels, comparable o' levels⟩
  | 0 => ⟨.of_not_ok fail_ok, .of_not_ok fail_ok⟩
  | levels + 1 =>
    ⟨widens_expressionBody h (widen_levels h levels), widens_comparableBody h (widen_levels h levels)⟩

theorem widens_filter (h : o.Within o') : Widens o Any (filter o) (filter o') := by
  refine widens_skipBlank.bind fun _ _ => widens_peekKind.bind fun k _ => ?_
  split
  · exact widens_pure none
  rw [h.depth]
  refine (widen_levels h o.maxDepth).expression.bind fun root _ => widens_skipBlank.bind fun _ _ =>
    widens_next.bind fun t _ => ?_
  split
  · refine widens_get.bind fun s _ => ?_
    split
    · exact .of_not_ok fun h => by cases h
    · exact widens_pure _
  · exact widens_unexpected t _

end Parser

/-- Options that take more give a filter the tree that it has already, with all its places. -/
theorem parse_widen {o o' : ParserOptions} (h : o.Within o') {input : String}
    {x : Option Expression} (hx : parse o input = .ok x) : parse o' input = .ok x := by
  obtain ⟨s', hrun⟩ := parse_ok.1 hx
  exact parse_ok.2 ⟨s', (Parser.widens_filter h _ x s' (parse_admits hx) hrun).1⟩

/-- Options only ever widen: a filter that is taken is taken under options that check less and have
more literals, and it is stored as the same tree. -/
theorem Store.reparse_widen (before : Store) (o o' : ParserOptions) (h : o.Within o')
    (input : String) (store : Store) (hstore : before.reparse o input = .ok store) :
    before.reparse o' input = .ok store := by
  obtain ⟨x, hx, rfl⟩ := Store.reparse_ok.1 hstore
  exact Store.reparse_ok.2 ⟨x, parse_widen h hx, rfl⟩

/-- A filter in the strict form without literals, read with all extensions: the store holds the same
tree, two sequences with a term that is negated in each. -/
theorem reparse_widen_strict : ∃ store e,
    ({ enableIn := true } : ParserOptions).strict.Within .allExtensions ∧
    Store.empty.reparse ({ enableIn := true } : ParserOptions).strict
      "a IN b OR NOT f(c.d,-1) AND -(e IN)" = .ok store ∧
    Store.empty.reparse .allExtensions "a IN b OR NOT f(c.d,-1) AND -(e IN)" = .ok store ∧
    store.tree? = some e ∧ e.render .quoted = "a IN b OR NOT f(c.d,-1) AND -(e IN)" ∧
    (e.sequences.map fun s => s.factors.map fun f => f.terms.map Term.unary) =
      [[[none, some .not]], [[some .minus]]] := by
  obtain ⟨e, he, hrender, hterms⟩ := exists_of_parse_any
    ({ enableIn := true } : ParserOptions).strict "a IN b OR NOT f(c.d,-1) AND -(e IN)"
    (fun e => e.render .quoted = "a IN b OR NOT f(c.d,-1) AND -(e IN)" ∧
      (e.sequences.map fun s => s.factors.map fun f => f.terms.map Term.unary) =
        [[[none, some .not]], [[some .minus]]]) (by decide +kernel)
  have hstore : Store.empty.reparse ({ enableIn := true } : ParserOptions).strict
      "a IN b OR NOT f(c.d,-1) AND -(e IN)" = .ok (Store.empty.load (some e)) :=
    Store.reparse_ok.2 ⟨some e, he, rfl⟩
  have hwithin : ({ enableIn := true } : ParserOptions).strict.Within .allExtensions := by decide
  exact ⟨_, e, hwithin, hstore, Store.reparse_widen _ _ _ hwithin _ _ hstore,
    Store.tree?_load .empty (some e), hrender, hterms⟩

end ListQuery.Filter
