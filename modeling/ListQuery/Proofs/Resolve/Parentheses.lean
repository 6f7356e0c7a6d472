/-
Parentheses around the right side of a comparison. A group of one value is that value, resolved one
level further down. So `f op (c)` resolves to what `f op c` resolves to when it may nest one level
deeper, but for two things: the path `f` too may then be one segment longer, and a field on the
right side of `IN` has to be named without parentheses. Main statement:
`Resolver.resolve_parentheses`.
-/
import ListQuery.Proofs.Parse.Comparisons
import ListQuery.Proofs.Resolve.Filters
import ListQuery.Proofs.Resolve.Unplaced

namespace ListQuery.Filter

open Resolve Piece

namespace Resolver

variable {r : Resolver} {levels depth : Nat}

theorem expression_ofSimple (x : Restriction) :
    r.expression (levels + 1) (.ofSimple (.restriction x)) = r.restriction levels x :=
  expression_single ⟨_, _, _, _, rfl⟩

/-- A group of one value is the value, one level further down. -/
theorem groupValue_holding (f : Field) (c : Comparable) (mode : ValueMode) :
    r.groupValue (levels + 1) f (Composite.holding c).expression mode =
      r.comparableValue levels f c mode := by
  funext s
  simp only [groupValue, groupBody, Composite.holding, Expression.ofSimple, List.mapM_cons,
    List.mapM_nil, pure_bind, bind_assoc, Option.isSome_none, Bool.false_eq_true, ↓reduceIte,
    Expr.disjunction, Expr.conjunction, bind_pure]

/-- With another limit the same levels give the same path. -/
theorem selectRoot_withDepth (path : List Leaf) :
    Agree (r.selectRoot levels path) ((r.withDepth depth).selectRoot levels path) :=
  (@selectRoot_unplaced r depth levels path).trans
    (@selectRoot_unplaced (r.withDepth depth) depth levels path).symm

theorem comparableValue_withDepth (hhooks : r.options.HookFree) (f : Field) (c : Comparable)
    (mode : ValueMode) :
    Agree (r.comparableValue levels f c mode)
      ((r.withDepth depth).comparableValue levels f c mode) :=
  ((@innerAt_unplaced r depth hhooks levels).comparable f c mode).trans
    ((@innerAt_unplaced (r.withDepth depth) depth ⟨hhooks.fieldHooks, hhooks.callHooks⟩
      levels).comparable f c mode).symm

theorem argValue_holding (hhooks : r.options.HookFree) (f : Field) (c : Comparable)
    (mode : ValueMode) :
    Agree (argValue (r.innerAt levels) f (.comparable c) mode)
      (argValue ((r.withDepth depth).innerAt (levels + 1)) f (.composite (.holding c)) mode) := by
  show Agree (r.comparableValue levels f c mode)
    ((r.withDepth depth).groupValue (levels + 1) f (Composite.holding c).expression mode)
  rw [groupValue_holding]
  exact comparableValue_withDepth hhooks f c mode

/-- Expressions that `IN` takes whatever they were read from. -/
def isListed : Expr → Bool
  | .array _ => true
  | .call .. => true
  | _ => false

theorem checkIn_ok {c : Comparison} {right e : Expr} (he : ∀ x, e ≠ .field x)
    (s : List (Report ValueCause)) :
    (∃ s', r.checkIn levels c right s = .ok e s') ↔ right = e ∧ isListed e = true := by
  unfold checkIn
  constructor
  · rintro ⟨s', h⟩
    cases right with
    | array | call =>
      cases h
      exact ⟨rfl, rfl⟩
    | field x =>
      obtain ⟨accepted, s₁, -, h⟩ := bind_ok.1 h
      cases accepted with
      | true => cases h; exact absurd rfl (he x)
      | false => cases h
    | compare | and | or | not | value | map => cases h
  · rintro ⟨rfl, hlisted⟩
    cases right with
    | array | call => exact ⟨s, rfl⟩
    | field | compare | and | or | not | value | map => cases hlisted

/-- A right side of `IN` that is no field is an array or a call, and nothing else is asked of it. -/
theorem rightSide_isIn_ok {target : Field} {pos : Position} {arg : Arg} {e : Expr}
    (he : ∀ x, e ≠ .field x) (s : List (Report ValueCause)) :
    (∃ s', r.rightSide levels target ⟨.isIn, pos, arg⟩ s = .ok e s') ↔
      (∃ s', argValue (r.innerAt levels) target arg ⟨r.options.allowIndirect, false⟩ s = .ok e s') ∧
        isListed e = true := by
  rw [rightSide_isIn rfl]
  constructor
  · rintro ⟨s', h⟩
    obtain ⟨right, s₁, hright, h⟩ := bind_ok.1 h
    obtain ⟨rfl, hlisted⟩ := (checkIn_ok he s₁).1 ⟨s', h⟩
    exact ⟨⟨s₁, hright⟩, hlisted⟩
  · rintro ⟨⟨s₁, hright⟩, hlisted⟩
    obtain ⟨s', h⟩ := (@checkIn_ok r levels ⟨.isIn, pos, arg⟩ e e he s₁).2 ⟨rfl, hlisted⟩
    exact ⟨s', bind_ok.2 ⟨e, s₁, hright, h⟩⟩

theorem rightSide_holding (hhooks : r.options.HookFree) (target : Field) (op : Comparator)
    (pos : Position) (c : Comparable) {e : Expr} (hin : op = .isIn → ∀ x, e ≠ .field x)
    (s t : List (Report ValueCause)) :
    (∃ s', r.rightSide levels target ⟨op, pos, .comparable c⟩ s = .ok e s') ↔
      ∃ t', (r.withDepth depth).rightSide (levels + 1) target
        ⟨op, pos, .composite (.holding c)⟩ t = .ok e t' := by
  have hvalue (f : Field) := @argValue_holding r levels depth hhooks f c
    ⟨r.options.allowIndirect, false⟩
  cases op with
  | has =>
    have hkey : Agree (r.rightSide levels target ⟨.has, pos, .comparable c⟩)
        ((r.withDepth depth).rightSide (levels + 1) target
          ⟨.has, pos, .composite (.holding c)⟩) := by
      simp only [rightSide, withDepth_allowIndirect]
      refine agree_ite ?_ (hvalue target)
      split
      · exact agree_throw _ _
      · exact hvalue _
    exact hkey s t e
  | isIn =>
    rw [rightSide_isIn_ok (hin rfl), rightSide_isIn_ok (hin rfl), hvalue target s t e]
    rfl
  | equals | notEquals | lessThan | lessEquals | greaterThan | greaterEquals =>
    exact hvalue target s t e

/-- A path that binds to a field with some levels binds to it with more, whatever the limit. -/
theorem selectRoot_deeper {path : List Leaf} {x : Selector × Field} {s t : List (Report ValueCause)}
    (h : ∃ s', r.selectRoot levels path s = .ok x s') :
    ∃ t', (r.withDepth depth).selectRoot (levels + 1) path t = .ok x t' := by
  obtain ⟨s', h⟩ := h
  exact (selectRoot_withDepth path s t x).1
    ⟨s', (selectRoot_deepens (Nat.le_succ levels) path).within s x s' h⟩

/-- The path of a member binds to a field within the limit; one level is for the expression that the
member stands in. -/
def Binds (r : Resolver) (m : Member) : Prop :=
  ∃ x, (r.selectRoot (r.options.maxDepth - 1) m.path).run.1 = .ok x

theorem leftSide_member {m : Member} {x : Expr × Field} {s s' : List (Report ValueCause)} :
    r.leftSide levels (.member m) s = .ok x s' ↔
      ∃ y, r.selectRoot levels m.path s = .ok y s' ∧ x = (.field y.1, y.2) := by
  constructor
  · intro h
    obtain ⟨y, s₁, hy, h⟩ := bind_ok.1 h
    cases h
    exact ⟨y, hy, rfl⟩
  · rintro ⟨y, hy, rfl⟩
    exact bind_ok.2 ⟨y, s', hy, rfl⟩

/-- A comparison of a member, taken apart. -/
theorem restriction_member (hhooks : r.options.HookFree) {m : Member} {op : Comparator} {arg : Arg}
    {v : Expr} {s : List (Report ValueCause)} :
    (∃ s', r.restriction levels ⟨.nowhere, .member m, some ⟨op, .start, arg⟩⟩ s = .ok v s') ↔
      ∃ y e s₁, r.selectRoot levels m.path s = .ok y s₁ ∧
        (∃ s', r.rightSide levels y.2 ⟨op, .start, arg⟩ s₁ = .ok e s') ∧
        v = .compare (.field y.1) op e := by
  rw [restriction_comparison hhooks]
  constructor
  · rintro ⟨s', h⟩
    obtain ⟨x, s₁, hx, h⟩ := bind_ok.1 h
    obtain ⟨y, hy, rfl⟩ := leftSide_member.1 hx
    obtain ⟨e, s₂, he, h⟩ := bind_ok.1 h
    cases h
    exact ⟨y, e, s₁, hy, ⟨_, he⟩, rfl⟩
  · rintro ⟨y, e, s₁, hy, ⟨s', he⟩, rfl⟩
    exact ⟨s', bind_ok.2 ⟨_, s₁, leftSide_member.2 ⟨y, hy, rfl⟩, bind_ok.2 ⟨e, s', he, rfl⟩⟩⟩

/-- The parentheses give the comparison the same meaning, one level further down. -/
theorem restriction_holding (hhooks : r.options.HookFree) {m : Member} {op : Comparator}
    {c : Comparable} {v : Expr} (hin : ∀ l x, v ≠ .compare l .isIn (.field x))
    (s t : List (Report ValueCause)) :
    (∃ s', r.restriction levels ⟨.nowhere, .member m, some ⟨op, .start, .comparable c⟩⟩ s =
        .ok v s') ↔
      (∃ t', (r.withDepth depth).restriction (levels + 1)
        ⟨.nowhere, .member m, some ⟨op, .start, .composite (.holding c)⟩⟩ t = .ok v t') ∧
      ∃ y s', r.selectRoot levels m.path s = .ok y s' := by
  have hhooks' : (r.withDepth depth).options.HookFree := ⟨hhooks.fieldHooks, hhooks.callHooks⟩
  rw [restriction_member hhooks, restriction_member hhooks']
  constructor
  · rintro ⟨y, e, s₁, hy, he, rfl⟩
    obtain ⟨t₁, hy'⟩ := @selectRoot_deeper r levels depth _ _ s t ⟨s₁, hy⟩
    have hfield : op = .isIn → ∀ x, e ≠ .field x := by
      rintro rfl x rfl
      exact hin _ x rfl
    have he' := (@rightSide_holding r levels depth hhooks y.2 op .start c e hfield s₁ t₁).1 he
    exact ⟨⟨y, e, t₁, hy', he', rfl⟩, y, s₁, hy⟩
  · rintro ⟨⟨y, e, t₁, hy, he, rfl⟩, y₀, s₁, hy₀⟩
    -- the path binds to one field, with more levels too
    obtain ⟨t₂, hy'⟩ := @selectRoot_deeper r levels depth _ _ s t ⟨s₁, hy₀⟩
    rw [hy] at hy'
    cases hy'
    have hfield : op = .isIn → ∀ x, e ≠ .field x := by
      rintro rfl x rfl
      exact hin _ x rfl
    exact ⟨y, e, s₁, hy₀, (rightSide_holding hhooks y.2 op .start c hfield s₁ t₁).2 he, rfl⟩

theorem not_selectRoot_zero {path : List Leaf} {x : Selector × Field}
    {s s' : List (Report ValueCause)} : ¬ r.selectRoot 0 path s = .ok x s' := by
  cases path <;> exact fun h => by cases h

theorem binds_unplaced {m : Member} {n : Nat} (hn : r.options.maxDepth = n + 1) :
    r.Binds m ↔ ∃ y s', r.selectRoot n m.unplaced.path [] = .ok y s' := by
  have hagree := @selectRoot_unplaced r r.options.maxDepth n m.path
  rw [withDepth_maxDepth, ← Member.unplaced_path] at hagree
  simp only [Binds, hn, Nat.add_sub_cancel, run_eq_ok]
  exact exists_congr fun y => hagree [] [] y

/-- Trees without places: a comparison with a comparable, and with the comparable in
parentheses. -/
theorem resolveTree_comparing (hhooks : r.options.HookFree) {m : Member} {op : Comparator}
    {c : Comparable} {filter : ResolvedFilter}
    (hin : ∀ l x, filter.expr ≠ some (.compare l .isIn (.field x))) :
    (∃ s, r.resolveTree (some (.comparing (.member m.unplaced) op (.comparable c))) [] =
        .ok filter s) ↔
      (∃ s, (r.withDepth (r.options.maxDepth + 1)).resolveTree
        (some (.comparing (.member m.unplaced) op (.composite (.holding c)))) [] =
          .ok filter s) ∧ r.Binds m := by
  rw [resolveTree_ok, resolveTree_ok]
  cases hdepth : r.options.maxDepth with
  | zero =>
    constructor
    · rintro ⟨v, ⟨s', h⟩, -⟩
      simp only [expression] at h
      cases h
    · rintro ⟨-, y, hy⟩
      rw [hdepth] at hy
      obtain ⟨s', hy⟩ := run_eq_ok.1 hy
      exact absurd hy not_selectRoot_zero
  | succ n =>
    have hcompare {v : Expr} (hv : filter = ⟨some v, v.complexity⟩) :
        ∀ l x, v ≠ .compare l .isIn (.field x) := by
      rintro l x rfl
      exact hin l x (by rw [hv])
    have hlevels : (r.withDepth (n + 1 + 1)).options.maxDepth = n + 1 + 1 := rfl
    simp only [hlevels, Expression.comparing, expression_ofSimple, binds_unplaced hdepth]
    constructor
    · rintro ⟨v, h, hv⟩
      obtain ⟨h', hbinds⟩ := (restriction_holding hhooks (hcompare hv) [] []).1 h
      exact ⟨⟨v, h', hv⟩, hbinds⟩
    · rintro ⟨⟨v, h, hv⟩, hbinds⟩
      exact ⟨v, (restriction_holding hhooks (hcompare hv) [] []).2 ⟨h, hbinds⟩, hv⟩

end Resolver

/-! ## Filters -/

/-- A tree that was read from a text and is a single comparison. -/
def Store.HoldsComparison (s : Store) (o : ParserOptions) (text : String) : Prop :=
  ∃ (before : Store) (e : Expression),
    before.reparse o text = .ok s ∧ s.tree? = some e ∧ e.isComparison = true

theorem Store.HoldsComparison.parse {s : Store} {o : ParserOptions} {text : String}
    (h : s.HoldsComparison o text) : ∃ e, Filter.parse o text = .ok (some e) ∧
      e.isComparison = true ∧ ∀ r : Resolver, r.resolve s = r.resolveTree (some e) := by
  obtain ⟨before, e, hs, htree, he⟩ := h
  obtain ⟨x, hx, rfl⟩ := Store.reparse_ok.1 hs
  rw [Store.tree?_load] at htree
  subst htree
  exact ⟨e, hx, he, fun r => r.resolve_load before (some e)⟩

/-- Two trees of single comparisons: a dotted name is compared with a comparable, without and with
parentheses around it. A `NOT` at the start of the comparable would be an operator there. -/
structure Store.BothWays (o : ParserOptions) (m : Member) (f : String) (op : Comparator)
    (c : String) (bare enclosed : Store) : Prop where
  path : m.SpelledBy f
  comparable : ∃ k, SpellsComparable o c k
  notWord : headKind (ParseState.ofString c).pieces ≠ .notWord
  bare : bare.HoldsComparison o (comparisonText f op c)
  enclosed : enclosed.HoldsComparison o (comparisonText f op ("(" ++ c ++ ")"))

/-- A comparison with a comparable and the one with the comparable in parentheses resolve to the
same, if the second may nest one level deeper and the path on the left binds to a field without that
level; a field on the right side of `IN` apart. -/
theorem Resolver.resolve_parentheses {r : Resolver} (hhooks : r.options.HookFree)
    {o : ParserOptions} {m : Member} {f c : String} {op : Comparator} {bare enclosed : Store}
    (h : Store.BothWays o m f op c bare enclosed) {filter : ResolvedFilter}
    (hin : ∀ l x, filter.expr ≠ some (.compare l .isIn (.field x))) :
    (r.resolve bare).run.1 = .ok filter ↔
      ((r.withDepth (r.options.maxDepth + 1)).resolve enclosed).run.1 = .ok filter ∧
        r.Binds m := by
  obtain ⟨k, hk⟩ := h.comparable
  obtain ⟨x, hx, hx', hbare⟩ := h.bare.parse
  obtain ⟨y, hy, hy', henclosed⟩ := h.enclosed.parse
  have htree := Resolver.resolveTree_unplaced hhooks x
  have htree' := Resolver.resolveTree_unplaced
    (r := r.withDepth (r.options.maxDepth + 1)) ⟨hhooks.fieldHooks, hhooks.callHooks⟩ y
  rw [hbare, henclosed, run_eq_ok, run_eq_ok, htree [] [] filter, htree' [] [] filter,
    parse_comparison h.path hk hx hx', parse_enclosed h.path hk h.notWord hy hy']
  exact Resolver.resolveTree_comparing hhooks hin

/-- The text is one comparable, checked by reading it. -/
def readsComparable (o : ParserOptions) (text : String) : Bool :=
  match Parser.comparable o o.maxDepth (.ofString text) with
  | .ok _ s => s.rest.isEmpty
  | .error _ _ => false

theorem exists_spellsComparable {o : ParserOptions} {text : String}
    (h : readsComparable o text = true) : ∃ k, SpellsComparable o text k := by
  unfold readsComparable at h
  split at h
  case h_1 k s hrun => exact ⟨k, o.maxDepth, s, hrun, List.isEmpty_iff.1 h⟩
  case h_2 => cases h

/-- Both trees of a comparison, with what holds of them, as checks that can be run. -/
theorem exists_bothWays (o : ParserOptions) (m : Member) (f : String) (op : Comparator)
    (c : String) (p q : Store → Bool) (hf : m.SpelledBy f) (hc : readsComparable o c = true)
    (hnot : headKind (ParseState.ofString c).pieces ≠ .notWord)
    (hp : (Store.empty.reparse o (comparisonText f op c)).toOption.any
      (fun s => s.tree?.any Expression.isComparison && p s) = true)
    (hq : (Store.empty.reparse o (comparisonText f op ("(" ++ c ++ ")"))).toOption.any
      (fun s => s.tree?.any Expression.isComparison && q s) = true) :
    ∃ bare enclosed, Store.BothWays o m f op c bare enclosed ∧ p bare = true ∧
      q enclosed = true := by
  obtain ⟨bare, hbare, hp⟩ := exists_of_any _ _ hp
  obtain ⟨enclosed, henclosed, hq⟩ := exists_of_any _ _ hq
  rw [Bool.and_eq_true, Option.any_eq_true] at hp hq
  obtain ⟨⟨x, hx, hx'⟩, hp⟩ := hp
  obtain ⟨⟨y, hy, hy'⟩, hq⟩ := hq
  exact ⟨bare, enclosed, ⟨hf, exists_spellsComparable hc, hnot, ⟨_, x, hbare, hx, hx'⟩,
    ⟨_, y, henclosed, hy, hy'⟩⟩, hp, hq⟩

/-- Whether a filter resolves to an expression with a property. -/
def Resolver.gives (r : Resolver) (p : Expr → Bool) (s : Store) : Bool :=
  (r.resolve s).run.1.toOption.any fun filter => filter.expr.any p

theorem Resolver.exists_of_gives {r : Resolver} {p : Expr → Bool} {s : Store}
    (h : r.gives p s = true) :
    ∃ filter e, (r.resolve s).run.1 = .ok filter ∧ filter.expr = some e ∧ p e = true := by
  obtain ⟨filter, hfilter, h⟩ := exists_of_any _ _ h
  obtain ⟨e, he, hp⟩ := (Option.any_eq_true _ _).1 h
  exact ⟨filter, e, hfilter, he, hp⟩

/-- A call in parentheses gives what the call gives. -/
theorem call_parentheses : ∃ bare enclosed filter,
    Store.BothWays {} (.ofWords "counts" ["x"]) "counts.x" .equals "now()" bare enclosed ∧
    (eventResolver.resolve bare).run.1 = .ok filter ∧
    ((eventResolver.withDepth (eventResolver.options.maxDepth + 1)).resolve enclosed).run.1 =
      .ok filter ∧ eventResolver.Binds (.ofWords "counts" ["x"]) := by
  obtain ⟨bare, enclosed, h, hgives, -⟩ := exists_bothWays {} (.ofWords "counts" ["x"])
    "counts.x" .equals "now()"
    (eventResolver.gives fun e => match e with
      | .compare _ .equals _ => true
      | _ => false)
    (fun _ => true) (by decide +kernel) (by decide +kernel) (by decide +kernel)
    (by decide +kernel) (by decide +kernel)
  obtain ⟨filter, e, hfilter, he, hp⟩ := Resolver.exists_of_gives hgives
  refine ⟨bare, enclosed, filter, h, hfilter, ?_⟩
  refine (Resolver.resolve_parentheses eventResolver_hookFree h ?_).1 hfilter
  intro l x hin
  rw [he] at hin
  cases hin
  cases hp

/-- Articles with tags and an author. -/
def article : Message :=
  ⟨"test.Article", [
    { name := "title", kind := .string },
    { name := "tags", kind := .string, cardinality := .repeated },
    Field.ofMessage "author" "test.Author"]⟩

def author : Message := ⟨"test.Author", [{ name := "name", kind := .string }]⟩

/-- Filters of articles. -/
def articleResolver : Resolver where
  schema := ⟨(Schema.wellKnownMessages ++ [author, article]).map Schema.numbered, []⟩
  root := Schema.numbered article
  options := { allowIndirect := true }

/-- Two comparisons that parentheses change: a field on the right side of `IN` is no longer
accepted, and a path that is too long for the limit fits the limit that is one higher. -/
theorem parentheses_matter :
    Schema.build { messages := [author, article] } = .ok articleResolver.schema ∧
    articleResolver.options.HookFree ∧
    (∃ m bare enclosed filter, Store.BothWays .allExtensions m "title" .isIn "tags" bare enclosed ∧
      (articleResolver.resolve bare).run.1 = .ok filter ∧
      ¬ ((articleResolver.withDepth (articleResolver.options.maxDepth + 1)).resolve
        enclosed).run.1 = .ok filter) ∧
    ∃ m bare enclosed filter, Store.BothWays {} m "author.name" .equals "x" bare enclosed ∧
      ¬ ((articleResolver.withDepth 2).resolve bare).run.1 = .ok filter ∧
      ((articleResolver.withDepth (2 + 1)).resolve enclosed).run.1 = .ok filter := by
  refine ⟨rfl, ⟨rfl, rfl⟩, ?_, ?_⟩
  · obtain ⟨bare, enclosed, h, hbare, henclosed⟩ := exists_bothWays .allExtensions
      (.ofWords "title" []) "title" .isIn "tags" (articleResolver.gives fun _ => true)
      (fun s => !(articleResolver.withDepth (articleResolver.options.maxDepth + 1)).gives
        (fun _ => true) s) (by decide +kernel) (by decide +kernel) (by decide +kernel)
      (by decide +kernel) (by decide +kernel)
    obtain ⟨filter, e, hfilter, he, -⟩ := Resolver.exists_of_gives hbare
    refine ⟨_, bare, enclosed, filter, h, hfilter, ?_⟩
    intro hsame
    simp [Resolver.gives, hsame, Except.toOption, he] at henclosed
  · obtain ⟨bare, enclosed, h, hbare, henclosed⟩ := exists_bothWays {} (.ofWords "author" ["name"])
      "author.name" .equals "x"
      (fun s => !(articleResolver.withDepth 2).gives (fun _ => true) s)
      ((articleResolver.withDepth (2 + 1)).gives fun _ => true) (by decide +kernel)
      (by decide +kernel) (by decide +kernel) (by decide +kernel) (by decide +kernel)
    obtain ⟨filter, e, hfilter, he, -⟩ := Resolver.exists_of_gives henclosed
    refine ⟨_, bare, enclosed, filter, h, ?_, hfilter⟩
    intro hsame
    simp [Resolver.gives, hsame, Except.toOption, he] at hbare

end ListQuery.Filter
