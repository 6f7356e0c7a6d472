/-
Runs on the states of a text, whether they succeed or not. A parser starts in front of the text and
from there takes tokens, looks at them, goes back and makes reports (`ParseState.Reached`). Two runs
with their own levels of nesting are followed side by side with the number of tokens that are left
(`Parser.Tracks`). A parenthesis is taken for each level of a group, and a bracket or a name for
each level of a comparable in another one; only the comparable that an expression starts with is one
level deeper before the same tokens. So a nesting ends where the tokens do: with more levels than
there are tokens, no run gets to the limit (`parseReporting_withDepth`).
-/
import ListQuery.Proofs.Parse.Depth

namespace ListQuery.Filter

/-- States that a parser can get to on a text. -/
inductive ParseState.Reached (input : String) : ParseState → Prop where
  | start : Reached input (.ofString input)
  | see {s : ParseState} (h : Reached input s) (t : Token) : Reached input (s.see t)
  | advance {s : ParseState} (h : Reached input s) : Reached input s.advance
  | backTo {s saved : ParseState} (h : Reached input s) (hsaved : Reached input saved) :
      Reached input (s.backTo saved)
  | report {s : ParseState} (h : Reached input s) (r : Report SyntaxCause) :
      Reached input { s with reports := s.reports ++ [r] }

namespace ParseState.Reached

variable {input : String} {s : ParseState}

/-- What is left are the last tokens of the text, and the text ends where it does. -/
theorem tokens_suffix (h : s.Reached input) : s.rest ++ [.eof s.finish] <:+ tokenize input := by
  suffices s.rest <:+ (ofString input).rest ∧ s.finish = endOf input by
    obtain ⟨⟨before, hbefore⟩, hfinish⟩ := this
    refine ⟨before, ?_⟩
    rw [hfinish, ← List.append_assoc, hbefore]
    rfl
  induction h with
  | start => exact ⟨List.suffix_refl _, rfl⟩
  | see h t ih => exact ih
  | advance h ih => exact ⟨(List.tail_suffix _).trans ih.1, ih.2⟩
  | backTo h hsaved ih ihsaved => exact ⟨ihsaved.1, ih.2⟩
  | report h r ih => exact ih

end ParseState.Reached

namespace Parser

variable {α β : Type} {input : String} {i j k l : Nat}

theorem bind_of_ok {p : Parser α} {f : α → Parser β} {s s₁ : ParseState} {a : α}
    (h : p s = .ok a s₁) : (p >>= f) s = f a s₁ := by
  simp only [bind, EStateM.bind, h]

/-- On states of the text with fewer than `j` tokens left the second parser does what the first one
does. Where they succeed they get to states of the text with fewer than `k` tokens left. -/
def Tracks (input : String) (j k : Nat) (p q : Parser α) : Prop :=
  ∀ s, s.Reached input → s.rest.length < j →
    q s = p s ∧ ∀ a s', p s = .ok a s' → s'.Reached input ∧ s'.rest.length < k

namespace Tracks

variable {p q : Parser α} {f g : α → Parser β}

theorem bind (h : Tracks input j k p q) (hf : ∀ a, Tracks input k l (f a) (g a)) :
    Tracks input j l (p >>= f) (q >>= g) := by
  intro s hs hlt
  obtain ⟨hsame, hok⟩ := h s hs hlt
  cases hp : p s with
  | error e s₁ =>
    rw [bind_error hp, bind_error (hsame.trans hp)]
    exact ⟨rfl, fun b s' hb => by cases hb⟩
  | ok a s₁ =>
    obtain ⟨hs₁, hlt₁⟩ := hok a s₁ hp
    rw [bind_of_ok hp, bind_of_ok (hsame.trans hp)]
    exact hf a s₁ hs₁ hlt₁

/-- A parser beside itself. -/
theorem step (h : ∀ {s a s'}, s.Reached input → p s = .ok a s' →
    s'.Reached input ∧ s'.rest.length ≤ s.rest.length) : Tracks input k k p p := by
  refine fun s hs hlt => ⟨rfl, fun a s' hp => ?_⟩
  obtain ⟨hs', hle⟩ := h hs hp
  exact ⟨hs', Nat.lt_of_le_of_lt hle hlt⟩

theorem of_not_ok (h : ∀ {s a s'}, ¬ p s = .ok a s') : Tracks input j k p p :=
  fun _ _ _ => ⟨rfl, fun _ _ hp => absurd hp h⟩

theorem mono (h : Tracks input j k p q) (hj : i ≤ j) (hk : k ≤ l) : Tracks input i l p q := by
  intro s hs hlt
  obtain ⟨hsame, hok⟩ := h s hs (Nat.lt_of_lt_of_le hlt hj)
  refine ⟨hsame, fun a s' hp => ?_⟩
  obtain ⟨hs', hlt'⟩ := hok a s' hp
  exact ⟨hs', Nat.lt_of_lt_of_le hlt' hk⟩

/-- The state that is kept to go back to is one of the text. -/
theorem saved {f g : ParseState → Parser β} (hf : ∀ saved, saved.Reached input →
      saved.rest.length < j → Tracks input j k (f saved) (g saved)) :
    Tracks input j k (get >>= f) (get >>= g) := fun s hs hlt => hf s hs hlt s hs hlt

end Tracks

/-! ## Steps -/

theorem tracks_pure (a : α) : Tracks input k k (pure a) (pure a) := by
  refine .step fun hs h => ?_
  rw [← (pure_ok.1 h).2]
  exact ⟨hs, Nat.le_refl _⟩

theorem tracks_peek : Tracks input k k peek peek := by
  refine .step fun hs h => ?_
  rw [(peek_ok h).2]
  exact ⟨hs.see _, Nat.le_refl _⟩

theorem tracks_peekKind : Tracks input k k peekKind peekKind := by
  refine .step fun hs h => ?_
  rw [(peekKind_ok h).2]
  exact ⟨hs.see _, Nat.le_refl _⟩

theorem tracks_next : Tracks input k k next next := by
  refine .step fun hs h => ?_
  rw [(next_eq h).2]
  exact ⟨(hs.see _).advance, (List.tail_suffix _).length_le⟩

theorem tracks_eat (kind : Kind) : Tracks input k k (eat kind) (eat kind) := by
  refine .step fun hs h => ?_
  rcases eat_eq h with ⟨-, -, rfl⟩ | ⟨-, -, rfl⟩
  · exact ⟨(hs.see _).advance, (List.tail_suffix _).length_le⟩
  · exact ⟨hs.see _, Nat.le_refl _⟩

theorem tracks_skipBlank : Tracks input k k skipBlank skipBlank := tracks_eat _

theorem tracks_restore {saved : ParseState} (hs : saved.Reached input)
    (hlt : saved.rest.length < k) : Tracks input j k (restore saved) (restore saved) := by
  refine fun s h _ => ⟨rfl, fun a s' hp => ?_⟩
  rw [(level_restore hp).rest, ← (EStateM.Result.ok.inj hp).2]
  exact ⟨h.backTo hs, hlt⟩

theorem tracks_spanFrom (start : Position) :
    Tracks input k k (spanFrom start) (spanFrom start) := by
  refine .step fun hs h => ?_
  rw [← spanFrom_ok h]
  exact ⟨hs, Nat.le_refl _⟩

theorem tracks_unexpected (t : Token) (what : String) :
    Tracks input j k (unexpected t what : Parser α) (unexpected t what) :=
  .of_not_ok unexpected_ok

theorem tracks_fail (pos : Position) (cause : SyntaxCause) :
    Tracks input j k (fail pos cause : Parser α) (fail pos cause) :=
  .of_not_ok fail_ok

/-- What is expected is a token and not the end of the text, so it is one token less. -/
theorem tracks_expect {kind : Kind} (hk : kind ≠ .eof) (what : String) :
    Tracks input k (k - 1) (expect kind what) (expect kind what) := by
  refine fun s hs hlt => ⟨rfl, fun t s' h => ?_⟩
  have hpieces := (expect_ok hk h).1
  have hstay : Tracks input k k (expect kind what) (expect kind what) := by
    refine tracks_next.bind fun t => ?_
    split
    · exact tracks_pure t
    · exact tracks_unexpected t what
  refine ⟨((hstay s hs hlt).2 t s' h).1, ?_⟩
  rw [← s.length_pieces, hpieces, List.length_cons, s'.length_pieces] at hlt
  omega

theorem tracks_leaf (t : Token) (what : String) : Tracks input k k (leaf t what) (leaf t what) := by
  unfold leaf
  split
  · exact tracks_pure _
  · exact tracks_unexpected t what

theorem tracks_checkName (path : List Leaf) (what : String) :
    Tracks input k k (checkName path what) (checkName path what) := by
  unfold checkName
  split
  · exact tracks_fail _ _
  · exact tracks_pure _

section Options

variable {o : ParserOptions}

theorem tracks_requireSpace (blank : Option Token) (place : String) :
    Tracks input k k (requireSpace o blank place) (requireSpace o blank place) := by
  refine .step fun hs h => ?_
  rw [← requireSpace_eq h]
  exact ⟨hs, Nat.le_refl _⟩

theorem tracks_innerBlank (place : String) :
    Tracks input k k (innerBlank o place) (innerBlank o place) := by
  refine tracks_skipBlank.bind fun blank => ?_
  cases blank with
  | none => exact tracks_pure ()
  | some t =>
    dsimp only
    split
    · exact tracks_fail _ _
    · exact tracks_pure ()

theorem tracks_keywordIsOperator :
    Tracks input k k keywordIsOperator keywordIsOperator := by
  refine .step fun hs h => ?_
  rw [← (EStateM.Result.ok.inj h).2]
  exact ⟨hs.see _, Nat.le_refl _⟩

theorem tracks_startsFactor : Tracks input k k (startsFactor o) (startsFactor o) := by
  refine tracks_peekKind.bind fun kind => ?_
  split
  case h_1 | h_2 => exact tracks_keywordIsOperator.bind fun _ => tracks_pure _
  all_goals exact tracks_pure _

theorem tracks_comparator? (t : Token) :
    Tracks input k k (comparator? o t) (comparator? o t) := by
  unfold comparator?
  split
  · split
    · refine tracks_keywordIsOperator.bind fun b => ?_
      split <;> exact tracks_pure _
    · exact tracks_pure _
  · exact tracks_pure _

theorem tracks_many {step step' : Parser (Option α)} (h : Tracks input k k step step') :
    Tracks input k k (many step) (many step') := by
  have run (fuel : Nat) :
      Tracks input k k (repeatStep step fuel) (repeatStep step' fuel) := by
    induction fuel with
    | zero => exact tracks_pure []
    | succ fuel ih =>
      refine h.bind fun a => ?_
      cases a with
      | none => exact tracks_pure []
      | some a => exact ih.bind fun _ => tracks_pure _
  exact fun s => run (s.rest.length + 1) s

theorem tracks_delimited (b : Brackets) {item item' : Parser α}
    (h : Tracks input k k item item') :
    Tracks input k k (delimited o b item) (delimited o b item') := by
  have run (fuel : Nat) :
      Tracks input k k (itemsFrom o b item fuel) (itemsFrom o b item' fuel) := by
    induction fuel with
    | zero => exact tracks_pure []
    | succ fuel ih =>
      refine h.bind fun a => (tracks_innerBlank b.place).bind fun _ => tracks_next.bind fun t => ?_
      split
      · exact (tracks_innerBlank b.place).bind fun _ => ih.bind fun _ => tracks_pure _
      · split
        · exact tracks_pure _
        · exact tracks_unexpected t b.expected
  refine (tracks_innerBlank b.place).bind fun _ => (tracks_eat b.close).bind fun t => ?_
  cases t with
  | some t => exact tracks_pure []
  | none => exact fun s => run (s.rest.length + 1) s

/-! ## Productions -/

/-- The parsers one level of nesting down, side by side. They are the same for comparables before
fewer than `k` tokens, and for expressions before one less. -/
structure Inner.Track (input : String) (k : Nat) (inner inner' : Inner) : Prop where
  expression : Tracks input (k - 1) (k - 1) inner.expression inner'.expression
  comparable : Tracks input k k inner.comparable inner'.comparable

variable {inner inner' : Inner}

theorem tracks_composite (hi : inner.Track input k inner') :
    Tracks input k k (composite inner) (composite inner') :=
  Tracks.mono ((tracks_expect (by decide) _).bind fun _ => tracks_skipBlank.bind fun _ =>
    hi.expression.bind fun _ => tracks_skipBlank.bind fun _ =>
    (tracks_expect (by decide) _).bind fun _ => (tracks_spanFrom _).bind fun _ => tracks_pure _)
    (Nat.le_refl k) (by omega)

theorem tracks_arg (hi : inner.Track input k inner') :
    Tracks input k k (arg inner) (arg inner') := by
  refine tracks_peekKind.bind fun kind => ?_
  split
  · exact (tracks_composite hi).bind fun _ => tracks_pure _
  · exact hi.comparable.bind fun _ => tracks_pure _

theorem tracks_dottedLeaf : Tracks input k k dottedLeaf dottedLeaf := by
  refine tracks_peekKind.bind fun kind => ?_
  split
  · exact tracks_next.bind fun _ => tracks_next.bind fun _ => (tracks_leaf _ _).bind fun _ =>
      tracks_pure _
  · exact tracks_pure none

/-- Items in delimiters: the opening one is a token less for the items. -/
theorem tracks_enclosed {kind : Kind} (hk : kind ≠ .eof) (what : String) (b : Brackets)
    {item item' : Parser α} (h : Tracks input k k item item') {f : Token → List α → Parser β}
    (hf : ∀ t as, Tracks input k k (f t as) (f t as)) :
    Tracks input (k + 1) (k + 1) (expect kind what >>= fun t => delimited o b item >>= f t)
      (expect kind what >>= fun t => delimited o b item' >>= f t) :=
  Tracks.mono ((tracks_expect (k := k + 1) hk what).bind fun t =>
    (tracks_delimited b h).bind fun as => hf t as) (Nat.le_refl _) (Nat.le_succ k)

theorem tracks_call (hi : inner.Track input k inner') (name : List Leaf) (start : Position) :
    Tracks input (k + 1) (k + 1) (call o inner name start) (call o inner' name start) :=
  tracks_enclosed (by decide) _ inCall (tracks_arg hi) fun _ _ =>
    (tracks_spanFrom start).bind fun _ => tracks_pure _

theorem tracks_arrayLiteral (hi : inner.Track input k inner') :
    Tracks input (k + 1) (k + 1) (arrayLiteral o inner) (arrayLiteral o inner') :=
  tracks_enclosed (by decide) _ inArray hi.comparable fun _ _ =>
    (tracks_spanFrom _).bind fun _ => tracks_pure _

theorem tracks_structEntry (hi : inner.Track input k inner') :
    Tracks input k k (structEntry o inner) (structEntry o inner') :=
  tracks_next.bind fun _ => (tracks_leaf _ _).bind fun _ => (tracks_innerBlank _).bind fun _ =>
    ((tracks_expect (by decide) _).mono (Nat.le_refl k) (Nat.sub_le k 1)).bind fun _ =>
    (tracks_innerBlank _).bind fun _ => hi.comparable.bind fun _ => tracks_pure _

theorem tracks_structLiteral (hi : inner.Track input k inner') (name : List Leaf)
    (start : Position) : Tracks input (k + 1) (k + 1) (structLiteral o inner name start)
      (structLiteral o inner' name start) :=
  tracks_enclosed (by decide) _ inStruct (tracks_structEntry hi) fun _ _ =>
    (tracks_spanFrom start).bind fun _ => tracks_pure _

theorem tracks_nameRun (hi : inner.Track input k inner') :
    Tracks input (k + 1) (k + 1) (nameRun o inner) (nameRun o inner') := by
  refine tracks_next.bind fun first => (tracks_leaf first _).bind fun value =>
    (tracks_many tracks_dottedLeaf).bind fun fields => tracks_peekKind.bind fun kind => ?_
  split
  · exact (tracks_checkName _ _).bind fun _ => (tracks_call hi _ _).bind fun _ => tracks_pure _
  · split
    · exact (tracks_checkName _ _).bind fun _ => (tracks_structLiteral hi _ _).bind fun _ =>
        tracks_pure _
    · exact (tracks_spanFrom _).bind fun _ => tracks_pure _
  · exact (tracks_spanFrom _).bind fun _ => tracks_pure _

theorem tracks_comparableBody (hi : inner.Track input k inner') :
    Tracks input (k + 1) (k + 1) (comparableBody o inner) (comparableBody o inner') := by
  refine tracks_peek.bind fun t => ?_
  split
  · exact (tracks_arrayLiteral hi).bind fun _ => tracks_pure _
  split
  · exact (tracks_structLiteral hi [] t.pos).bind fun _ => tracks_pure _
  split
  · exact tracks_nameRun hi
  · exact tracks_next.bind fun _ => tracks_unexpected t _

theorem tracks_restriction (hi : inner.Track input k inner') :
    Tracks input k k (restriction o inner) (restriction o inner') := by
  refine tracks_peek.bind fun first => hi.comparable.bind fun comparable =>
    .saved fun saved hsaved hlt => tracks_skipBlank.bind fun _ => tracks_peek.bind fun t =>
    (tracks_comparator? t).bind fun comparator => ?_
  cases comparator with
  | some comparator =>
    exact tracks_next.bind fun _ => tracks_skipBlank.bind fun _ => (tracks_arg hi).bind fun _ =>
      (tracks_spanFrom _).bind fun _ => tracks_pure _
  | none =>
    exact (tracks_restore hsaved hlt).bind fun _ => (tracks_spanFrom _).bind fun _ => tracks_pure _

theorem tracks_unary : Tracks input k k (unary o) (unary o) := by
  refine tracks_peekKind.bind fun kind => ?_
  split
  · refine tracks_keywordIsOperator.bind fun b => ?_
    split
    · exact tracks_next.bind fun _ => tracks_skipBlank.bind fun _ =>
        (tracks_requireSpace _ _).bind fun _ => tracks_pure _
    · exact tracks_pure none
  · exact tracks_next.bind fun _ => (tracks_innerBlank _).bind fun _ => tracks_pure _
  · exact tracks_pure none

theorem tracks_simple (hi : inner.Track input k inner') :
    Tracks input k k (simple o inner) (simple o inner') := by
  refine tracks_peekKind.bind fun kind => ?_
  split
  · exact (tracks_composite hi).bind fun _ => tracks_pure _
  · exact (tracks_restriction hi).bind fun _ => tracks_pure _

theorem tracks_term (hi : inner.Track input k inner') :
    Tracks input k k (term o inner) (term o inner') :=
  tracks_peek.bind fun _ => tracks_unary.bind fun _ => (tracks_simple hi).bind fun _ =>
    (tracks_spanFrom _).bind fun _ => tracks_pure _

theorem tracks_joiner (word : Kind) (before after : String) :
    Tracks input k k (joiner o word before after) (joiner o word before after) := by
  refine .saved fun saved hsaved hlt => tracks_skipBlank.bind fun blank =>
    tracks_peekKind.bind fun kind => ?_
  have back : Tracks input k k (restore saved >>= fun _ => pure (none : Option Position))
      (restore saved >>= fun _ => pure none) :=
    (tracks_restore hsaved hlt).bind fun _ => tracks_pure none
  split
  · refine tracks_keywordIsOperator.bind fun b => ?_
    split
    · exact (tracks_requireSpace _ _).bind fun _ => tracks_next.bind fun _ =>
        tracks_skipBlank.bind fun _ => (tracks_requireSpace _ _).bind fun _ => tracks_pure _
    · exact back
  · exact back

theorem tracks_orTerm (hi : inner.Track input k inner') :
    Tracks input k k (orTerm o inner) (orTerm o inner') := by
  refine (tracks_joiner _ _ _).bind fun pos => ?_
  cases pos with
  | some pos => exact (tracks_term hi).bind fun _ => tracks_pure _
  | none => exact tracks_pure none

theorem tracks_factor (hi : inner.Track input k inner') :
    Tracks input k k (factor o inner) (factor o inner') :=
  tracks_peek.bind fun _ => (tracks_term hi).bind fun _ =>
    (tracks_many (tracks_orTerm hi)).bind fun _ => (tracks_spanFrom _).bind fun _ => tracks_pure _

theorem tracks_nextFactor (hi : inner.Track input k inner') :
    Tracks input k k (nextFactor o inner) (nextFactor o inner') := by
  refine .saved fun saved hsaved hlt => tracks_skipBlank.bind fun blank => ?_
  cases blank with
  | none => exact tracks_pure none
  | some blank =>
    refine tracks_startsFactor.bind fun b => ?_
    split
    · exact (tracks_requireSpace _ _).bind fun _ => (tracks_factor hi).bind fun _ => tracks_pure _
    · exact (tracks_restore hsaved hlt).bind fun _ => tracks_pure none

theorem tracks_sequence (hi : inner.Track input k inner') :
    Tracks input k k (sequence o inner) (sequence o inner') :=
  tracks_peek.bind fun _ => (tracks_factor hi).bind fun _ =>
    (tracks_many (tracks_nextFactor hi)).bind fun _ => (tracks_spanFrom _).bind fun _ =>
    tracks_pure _

theorem tracks_andSequence (hi : inner.Track input k inner') :
    Tracks input k k (andSequence o inner) (andSequence o inner') := by
  refine (tracks_joiner _ _ _).bind fun pos => ?_
  cases pos with
  | some pos => exact (tracks_sequence hi).bind fun _ => tracks_pure _
  | none => exact tracks_pure none

theorem tracks_expressionBody (hi : inner.Track input k inner') :
    Tracks input k k (expressionBody o inner) (expressionBody o inner') :=
  tracks_peek.bind fun _ => (tracks_sequence hi).bind fun _ =>
    (tracks_many (tracks_andSequence hi)).bind fun _ => (tracks_spanFrom _).bind fun _ =>
    tracks_pure _

end Options

variable (o : ParserOptions)

/-- One level more is good for one token more. -/
theorem Inner.Track.succ (depth : Nat) {levels levels' : Nat}
    (hi : (innerAt o levels).Track input k (innerAt (o.withDepth depth) levels')) :
    (innerAt o (levels + 1)).Track input (k + 1) (innerAt (o.withDepth depth) (levels' + 1)) := by
  rw [innerAt_succ, innerAt_succ, expressionBody_withDepth, comparableBody_withDepth]
  exact ⟨tracks_expressionBody hi, tracks_comparableBody hi⟩

theorem tracks_none (p q : Parser α) : Tracks input 0 k p q :=
  fun _ _ hlt => absurd hlt (Nat.not_lt_zero _)

/-- Before fewer tokens than there are levels the limit plays no part. -/
theorem innerAt_track (depth : Nat) : ∀ {k levels levels' : Nat}, k ≤ levels → k ≤ levels' →
    (innerAt o levels).Track input k (innerAt (o.withDepth depth) levels')
  | 0, _, _, _, _ => ⟨tracks_none _ _, tracks_none _ _⟩
  | _ + 1, 0, _, h, _ => absurd h (Nat.not_succ_le_zero _)
  | _ + 1, _, 0, _, h => absurd h (Nat.not_succ_le_zero _)
  | _ + 1, _ + 1, _ + 1, h, h' =>
    Inner.Track.succ o depth
      (innerAt_track depth (Nat.le_of_succ_le_succ h) (Nat.le_of_succ_le_succ h'))

/-- A run keeps to the states of the text, however many levels it has. -/
theorem innerAt_track_self : ∀ levels k, (innerAt o levels).Track input k (innerAt o levels)
  | 0, _ => ⟨.of_not_ok tooDeep_ok, .of_not_ok tooDeep_ok⟩
  | _, 0 => ⟨tracks_none _ _, tracks_none _ _⟩
  | levels + 1, k + 1 => Inner.Track.succ o o.maxDepth (innerAt_track_self levels k)

theorem tracks_filter {depth : Nat} (h : k < o.maxDepth) (h' : k < depth) :
    Tracks input k k (filter o) (filter (o.withDepth depth)) := by
  refine tracks_skipBlank.bind fun _ => tracks_peekKind.bind fun kind => ?_
  split
  · exact tracks_pure none
  refine (innerAt_track o depth h h').expression.bind fun root => tracks_skipBlank.bind fun _ =>
    tracks_next.bind fun t => ?_
  split
  · refine .saved fun s _ _ => ?_
    split
    · exact .of_not_ok fun h => by cases h
    · exact tracks_pure _
  · exact tracks_unexpected t _

end Parser

/-- A nesting ends where the tokens do. With more levels than there are tokens, the end of the text
among them, the limit plays no part in what a filter is read to and in what is reported. -/
theorem parseReporting_withDepth (o : ParserOptions) (input : String) {depth depth' : Nat}
    (h : (tokenize input).length < depth) (h' : (tokenize input).length < depth') :
    parseReporting (o.withDepth depth) input = parseReporting (o.withDepth depth') input := by
  have hlt : (ParseState.ofString input).rest.length < (tokenize input).length := by
    rw [tokenize, List.length_append]
    exact Nat.lt_succ_self _
  have hsame := (Parser.tracks_filter (o.withDepth depth) h h' _ .start hlt).1
  simp only [parseReporting, ← hsame]
  rfl

end ListQuery.Filter
