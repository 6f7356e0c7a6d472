/-
The limit of the grammar is the height of the tree. A run that succeeds is followed side by side
with a run that has its own number of levels: where these are enough for the height of what is read,
the second run does the same as the first, and where they are not it fails (`Parser.Needs`). Levels
are used by expressions and comparables alone; whatever is read one behind the other needs the most
that any part of it needs. Main statement: `parse_withDepth`.
-/
import ListQuery.Proofs.Parse.Enclosed
import ListQuery.Proofs.Tree.Height

namespace ListQuery.Filter

namespace Parser

variable {α β : Type} {levels : Nat} {R : α → Nat → Prop} {S : β → Nat → Prop}

/-- Where the first parser succeeds, its result needs a number of levels, which `R` relates to it.
The second parser has `levels` of them: it does the same as the first if they are enough, and fails
otherwise. -/
def Needs (levels : Nat) (R : α → Nat → Prop) (p q : Parser α) : Prop :=
  ∀ s a s', p s = .ok a s' → ∃ n, R a n ∧ (n ≤ levels → q s = .ok a s') ∧
    (levels < n → ∃ pos s'', q s = .error (.invalidSyntax pos) s'')

/-- The result needs as many levels as it is high. -/
def High (height : α → Nat) (a : α) (n : Nat) : Prop := height a = n

@[simp] theorem high_iff {height : α → Nat} {a : α} {n : Nat} : High height a n ↔ height a = n :=
  Iff.rfl

theorem bind_error {p : Parser α} {f : α → Parser β} {s s' : ParseState} {e : FilterError}
    (h : p s = .error e s') : (p >>= f) s = .error e s' := by
  simp only [bind, EStateM.bind, h]

namespace Needs

variable {p q : Parser α} {f g : α → Parser β}

/-- Two runs one behind the other need what the one that needs more needs. -/
theorem bind (h : Needs levels R p q)
    (hf : ∀ a n, R a n → Needs levels (fun b k => S b (max n k)) (f a) (g a)) :
    Needs levels S (p >>= f) (q >>= g) := by
  intro s b s' hs
  obtain ⟨a, s₁, hp, hb⟩ := bind_ok.1 hs
  obtain ⟨n, ha, hsame, hfail⟩ := h s a s₁ hp
  obtain ⟨k, hk, hsame', hfail'⟩ := hf a n ha s₁ b s' hb
  refine ⟨max n k, hk, fun hle => ?_, fun hlt => ?_⟩
  · obtain ⟨hn, hk⟩ := Nat.max_le.1 hle
    exact bind_ok.2 ⟨a, s₁, hsame hn, hsame' hk⟩
  · by_cases hn : n ≤ levels
    · obtain ⟨pos, s'', herror⟩ := hfail' (by omega)
      refine ⟨pos, s'', ?_⟩
      rw [← herror]
      simp only [Bind.bind, EStateM.bind, hsame hn]
    · obtain ⟨pos, s'', herror⟩ := hfail (by omega)
      exact ⟨pos, s'', bind_error herror⟩

/-- What is read first needs its height. -/
theorem read {height : α → Nat} (h : Needs levels (High height) p q)
    (hf : ∀ a, Needs levels (fun b k => S b (max (height a) k)) (f a) (g a)) :
    Needs levels S (p >>= f) (q >>= g) := by
  refine h.bind ?_
  rintro a _ rfl
  exact hf a

/-- A step that both runs make needs no level. -/
theorem same (hf : ∀ a, Needs levels S (f a) (g a)) : Needs levels S (p >>= f) (p >>= g) := by
  have hp : Needs levels (fun _ n => n = 0) p p := fun s a s' h =>
    ⟨0, rfl, fun _ => h, fun hlt => absurd hlt (Nat.not_lt_zero _)⟩
  refine hp.bind ?_
  rintro a _ rfl
  simp only [Nat.zero_max]
  exact hf a

theorem pure {a : α} (h : R a 0) : Needs levels R (pure a) (pure a) := by
  intro s b s' hs
  obtain ⟨rfl, rfl⟩ := pure_ok.1 hs
  exact ⟨0, h, fun _ => hs, fun hlt => absurd hlt (Nat.not_lt_zero _)⟩

theorem of_not_ok (h : ∀ {s a s'}, ¬ p s = .ok a s') : Needs levels R p q :=
  fun _ _ _ hp => absurd hp h

/-- A level that is granted is one more than what is read with it needs. -/
theorem granted {height : α → Nat} (h : Needs levels (fun a n => height a = n + 1) p q) :
    Needs (levels + 1) (High height) p q := by
  intro s a s' hs
  obtain ⟨n, ha, hsame, hfail⟩ := h s a s' hs
  exact ⟨n + 1, ha, fun hle => hsame (by omega), fun hlt => hfail (by omega)⟩

/-- Without a level that could be granted the second run fails. -/
theorem refused {height : α → Nat} (hpos : ∀ a, 0 < height a) (o : ParserOptions) :
    Needs 0 (High height) p (tooDeep o) := fun s a _ _ =>
  ⟨height a, rfl, fun hle => absurd (hpos a) (by omega), fun _ => ⟨_, _, rfl⟩⟩

end Needs

section Lists

variable {height : α → Nat} {o : ParserOptions}

theorem needs_many {step step' : Parser (Option α)}
    (h : Needs levels (High fun x => x.elim 0 height) step step') :
    Needs levels (High (tallest height)) (many step) (many step') := by
  have run (fuel : Nat) :
      Needs levels (High (tallest height)) (repeatStep step fuel) (repeatStep step' fuel) := by
    induction fuel with
    | zero => exact .pure rfl
    | succ fuel ih =>
      refine h.read fun x => ?_
      cases x with
      | none => exact .pure rfl
      | some a =>
        refine ih.read fun as => ?_
        exact .pure (by simp)
  exact fun s => run (s.rest.length + 1) s

theorem needs_delimited (b : Brackets) {item item' : Parser α}
    (h : Needs levels (High height) item item') :
    Needs levels (High (tallest height)) (delimited o b item) (delimited o b item') := by
  have run (fuel : Nat) : Needs levels (High (tallest height)) (itemsFrom o b item fuel)
      (itemsFrom o b item' fuel) := by
    induction fuel with
    | zero => exact .pure rfl
    | succ fuel ih =>
      refine h.read fun a => ?_
      refine .same fun _ => .same fun t => ?_
      split
      · refine .same fun _ => ih.read fun as => ?_
        exact .pure (by simp)
      · split
        · exact .pure (by simp)
        · exact .of_not_ok unexpected_ok
  refine .same fun _ => .same fun t => ?_
  cases t with
  | some t => exact .pure rfl
  | none => exact fun s => run (s.rest.length + 1) s

end Lists

/-! ## Productions -/

/-- The parsers one level of nesting down, side by side. -/
structure Inner.Need (levels : Nat) (inner inner' : Inner) : Prop where
  expression : Needs levels (High Expression.height) inner.expression inner'.expression
  comparable : Needs levels (High Comparable.height) inner.comparable inner'.comparable

section Productions

variable {o : ParserOptions} {inner inner' : Inner}

theorem needs_composite (hi : inner.Need levels inner') :
    Needs levels (High Composite.height) (composite inner) (composite inner') := by
  refine .same fun _ => .same fun _ => hi.expression.read fun e => ?_
  exact .same fun _ => .same fun _ => .same fun _ => .pure (by simp [Composite.height])

theorem needs_arg (hi : inner.Need levels inner') :
    Needs levels (High Arg.height) (arg inner) (arg inner') := by
  refine .same fun k => ?_
  split
  · refine (needs_composite hi).read fun c => ?_
    exact .pure (by simp [Arg.height])
  · refine hi.comparable.read fun c => ?_
    exact .pure (by simp [Arg.height])

theorem needs_call (hi : inner.Need levels inner') (name : List Leaf) (start : Position) :
    Needs levels (High Call.height) (call o inner name start) (call o inner' name start) := by
  refine .same fun _ => (needs_delimited inCall (needs_arg hi)).read fun args => ?_
  exact .same fun _ => .pure (by simp [Call.height, argsHeight_eq])

theorem needs_arrayLiteral (hi : inner.Need levels inner') :
    Needs levels (High ArrayLiteral.height) (arrayLiteral o inner) (arrayLiteral o inner') := by
  refine .same fun _ => (needs_delimited inArray hi.comparable).read fun elements => ?_
  exact .same fun _ => .pure (by simp [ArrayLiteral.height, elementsHeight_eq])

theorem needs_structEntry (hi : inner.Need levels inner') :
    Needs levels (High StructEntry.height) (structEntry o inner) (structEntry o inner') := by
  refine .same fun _ => .same fun name => .same fun _ => .same fun _ => .same fun _ =>
    hi.comparable.read fun value => ?_
  exact .pure (by simp [StructEntry.height])

theorem needs_structLiteral (hi : inner.Need levels inner') (name : List Leaf)
    (start : Position) : Needs levels (High StructLiteral.height)
      (structLiteral o inner name start) (structLiteral o inner' name start) := by
  refine .same fun _ => (needs_delimited inStruct (needs_structEntry hi)).read fun entries => ?_
  exact .same fun _ => .pure (by simp [StructLiteral.height, entriesHeight_eq])

theorem needs_nameRun (hi : inner.Need levels inner') :
    Needs levels (fun c n => c.height = n + 1) (nameRun o inner) (nameRun o inner') := by
  refine .same fun first => .same fun value => .same fun fields => .same fun k => ?_
  split
  · refine .same fun _ => (needs_call hi _ _).read fun c => ?_
    exact .pure (by simp [Comparable.height])
  · split
    · refine .same fun _ => (needs_structLiteral hi _ _).read fun x => ?_
      exact .pure (by simp [Comparable.height])
    · exact .same fun _ => .pure rfl
  · exact .same fun _ => .pure rfl

theorem needs_comparableBody (hi : inner.Need levels inner') :
    Needs levels (fun c n => c.height = n + 1) (comparableBody o inner)
      (comparableBody o inner') := by
  refine .same fun t => ?_
  split
  · refine (needs_arrayLiteral hi).read fun a => ?_
    exact .pure (by simp [Comparable.height])
  split
  · refine (needs_structLiteral hi [] t.pos).read fun x => ?_
    exact .pure (by simp [Comparable.height])
  split
  · exact needs_nameRun hi
  · exact .same fun _ => .of_not_ok unexpected_ok

theorem needs_restriction (hi : inner.Need levels inner') :
    Needs levels (High Restriction.height) (restriction o inner) (restriction o inner') := by
  refine .same fun _ => hi.comparable.read fun comparable => ?_
  refine .same fun saved => .same fun _ => .same fun t => .same fun comparator => ?_
  cases comparator with
  | some comparator =>
    refine .same fun _ => .same fun _ => (needs_arg hi).read fun arg => ?_
    exact .same fun _ => .pure (by simp [Restriction.height, Comparison.height])
  | none => exact .same fun _ => .same fun _ => .pure (by simp [Restriction.height])

theorem needs_simple (hi : inner.Need levels inner') :
    Needs levels (High Simple.height) (simple o inner) (simple o inner') := by
  refine .same fun k => ?_
  split
  · refine (needs_composite hi).read fun c => ?_
    exact .pure (by simp [Simple.height])
  · refine (needs_restriction hi).read fun r => ?_
    exact .pure (by simp [Simple.height])

theorem needs_term (hi : inner.Need levels inner') :
    Needs levels (High Term.height) (term o inner) (term o inner') := by
  refine .same fun _ => .same fun _ => (needs_simple hi).read fun x => ?_
  exact .same fun _ => .pure (by simp [Term.height])

theorem needs_orTerm (hi : inner.Need levels inner') :
    Needs levels (High fun x => x.elim 0 fun y => y.2.height) (orTerm o inner)
      (orTerm o inner') := by
  refine .same fun pos => ?_
  cases pos with
  | some pos =>
    refine (needs_term hi).read fun t => ?_
    exact .pure (by simp)
  | none => exact .pure rfl

theorem tallest_linkTerms (first : Term) (others : List (Position × Term)) :
    tallest Term.height (linkTerms first others) =
      max first.height (tallest (fun x => x.2.height) others) := by
  induction others generalizing first with
  | nil => rfl
  | cons x others ih =>
    obtain ⟨pos, t⟩ := x
    have hfirst : ({ first with orPos := some pos } : Term).height = first.height := by
      cases first
      rfl
    rw [linkTerms, tallest_cons, ih, hfirst, tallest_cons]

theorem needs_factor (hi : inner.Need levels inner') :
    Needs levels (High Factor.height) (factor o inner) (factor o inner') := by
  refine .same fun _ => (needs_term hi).read fun first => ?_
  refine (needs_many (needs_orTerm hi)).read fun others => ?_
  exact .same fun _ => .pure (by simp [Factor.height, termsHeight_eq, tallest_linkTerms])

theorem needs_nextFactor (hi : inner.Need levels inner') :
    Needs levels (High fun x => x.elim 0 Factor.height) (nextFactor o inner)
      (nextFactor o inner') := by
  refine .same fun saved => .same fun blank => ?_
  cases blank with
  | none => exact .pure rfl
  | some blank =>
    refine .same fun starts => ?_
    split
    · refine .same fun _ => (needs_factor hi).read fun f => ?_
      exact .pure (by simp)
    · exact .same fun _ => .pure rfl

theorem needs_sequence (hi : inner.Need levels inner') :
    Needs levels (High Sequence.height) (sequence o inner) (sequence o inner') := by
  refine .same fun _ => (needs_factor hi).read fun first => ?_
  refine (needs_many (needs_nextFactor hi)).read fun others => ?_
  exact .same fun _ => .pure (by simp [Sequence.height, factorsHeight_eq])

theorem needs_andSequence (hi : inner.Need levels inner') :
    Needs levels (High fun x => x.elim 0 Sequence.height) (andSequence o inner)
      (andSequence o inner') := by
  refine .same fun pos => ?_
  cases pos with
  | some pos =>
    refine (needs_sequence hi).read fun s => ?_
    exact .pure (by simp)
  | none => exact .pure rfl

theorem needs_expressionBody (hi : inner.Need levels inner') :
    Needs levels (fun e n => e.height = n + 1) (expressionBody o inner)
      (expressionBody o inner') := by
  refine .same fun _ => (needs_sequence hi).read fun first => ?_
  refine (needs_many (needs_andSequence hi)).read fun others => ?_
  exact .same fun _ => .pure (by simp [Expression.height, sequencesHeight_eq])

end Productions

/-- By induction on the levels of the first run; each of them takes one of the second run's. -/
theorem innerAt_need (o : ParserOptions) (depth : Nat) : ∀ n levels,
    (innerAt o n).Need levels (innerAt (o.withDepth depth) levels)
  | 0, _ => ⟨.of_not_ok tooDeep_ok, .of_not_ok tooDeep_ok⟩
  | _ + 1, 0 => ⟨.refused Expression.height_pos _, .refused Comparable.height_pos _⟩
  | n + 1, levels + 1 => by
    have hi := innerAt_need o depth n levels
    rw [innerAt_succ, innerAt_succ, expressionBody_withDepth, comparableBody_withDepth]
    exact ⟨(needs_expressionBody hi).granted, (needs_comparableBody hi).granted⟩

theorem needs_filter (o : ParserOptions) (levels : Nat) :
    Needs levels (High filterHeight) (filter o) (filter (o.withDepth levels)) := by
  refine .same fun _ => .same fun k => ?_
  split
  · exact .pure rfl
  refine (innerAt_need o levels o.maxDepth levels).expression.read fun e => ?_
  refine .same fun _ => .same fun t => ?_
  split
  · refine .same fun s => ?_
    split
    · exact .of_not_ok fun h => by cases h
    · exact .pure (by simp [filterHeight])
  · exact .of_not_ok unexpected_ok

end Parser

theorem parse_error {o : ParserOptions} {input : String} {e : FilterError} :
    parse o input = .error e ↔ ∃ s, Parser.filter o (.ofString input) = .error e s := by
  simp only [parse, parseReporting]
  cases Parser.filter o (.ofString input) with
  | ok root s => simp
  | error e s => simp

/-- The limit on nesting is the height of the tree. A filter that is read with some limit is read to
the same tree with every limit that is no less than the tree is high, and refused with every smaller
one. The height is the greatest number of expressions and comparables on a path down the tree, and
none for a filter without a tree; how often the same sequences stand in it plays no part. -/
theorem parse_withDepth {o : ParserOptions} {input : String} {root : Option Expression}
    (h : parse o input = .ok root) :
    (∀ depth, (filterHeight root ≤ depth → parse (o.withDepth depth) input = .ok root) ∧
      (depth < filterHeight root →
        ∃ pos, parse (o.withDepth depth) input = .error (.invalidSyntax pos))) ∧
    (root = none → filterHeight root = 0) ∧
    (∀ e, root = some e →
      IsGreatest {levels | (Node.expression e).Descends levels} (filterHeight root)) ∧
    ∀ copies, filterHeight (root.map (Expression.repeated copies)) = filterHeight root := by
  refine ⟨fun depth => ?_, ?_, ?_, fun copies => ?_⟩
  · obtain ⟨s, hs⟩ := parse_ok.1 h
    obtain ⟨height, rfl, hsame, hfail⟩ := Parser.needs_filter o depth _ root s hs
    refine ⟨fun hle => parse_ok.2 ⟨s, hsame hle⟩, fun hlt => ?_⟩
    obtain ⟨pos, s', herror⟩ := hfail hlt
    exact ⟨pos, parse_error.2 ⟨s', herror⟩⟩
  · rintro rfl
    rfl
  · rintro e rfl
    exact (Node.expression e).isGreatest_height
  · cases root with
    | none => rfl
    | some e => exact e.height_repeated copies

/-- An array in a call in two groups: six levels are enough, and five are not. -/
theorem nested_array_depth : ∃ root pos,
    parse .allExtensions "c d OR (NOT (a = f([1, 2], b))) AND e" = .ok root ∧
    filterHeight root = 6 ∧
    parse (ParserOptions.allExtensions.withDepth 6) "c d OR (NOT (a = f([1, 2], b))) AND e" =
      .ok root ∧
    parse (ParserOptions.allExtensions.withDepth 5) "c d OR (NOT (a = f([1, 2], b))) AND e" =
      .error (.invalidSyntax pos) := by
  obtain ⟨e, he, hheight⟩ := exists_of_parse_any .allExtensions
    "c d OR (NOT (a = f([1, 2], b))) AND e" (fun e => e.height = 6) (by decide +kernel)
  have hroot : filterHeight (some e) = 6 := hheight
  obtain ⟨hlimit, -⟩ := parse_withDepth he
  obtain ⟨pos, hfive⟩ := (hlimit 5).2 (by omega)
  exact ⟨some e, pos, he, hroot, (hlimit 6).1 hroot.le, hfive⟩

end ListQuery.Filter
