/-
The limit of resolution is a threshold. With more levels a tree resolves as before unless it went
too deep (`Resolver.resolve_deepens`). So a tree that resolves with some limit has a least one with
which it does (`Resolver.Limited`), and more of the same sequences leave that one as it is. Main
statement: `Resolver.resolve_withDepth`.
-/
import Mathlib.Order.Nat
import ListQuery.Proofs.Resolve.Filters
import ListQuery.Proofs.Resolve.Levels
import ListQuery.Proofs.Resolve.Tasks
import ListQuery.Proofs.Tree.Height
import ListQuery.Proofs.Tree.Operands

namespace ListQuery.Filter

open Resolve

namespace Resolve

variable {α β γ : Type} {s : List (Report ValueCause)}

theorem succeeds_map_iff {x : Resolve α} {g : α → β} :
    Succeeds (x >>= fun a => pure (g a)) s ↔ Succeeds x s := by
  constructor
  · rintro ⟨_, _, h⟩
    obtain ⟨a, s₁, ha, -⟩ := bind_ok.1 h
    exact ⟨a, s₁, ha⟩
  · rintro ⟨a, s₁, ha⟩
    exact ⟨g a, s₁, bind_ok.2 ⟨a, s₁, ha, rfl⟩⟩

/-- Steps one behind the other give their values when each of them does on its own. -/
theorem succeeds_mapM_iff {f : γ → Resolve α} (hf : ∀ x, Agree (f x) (f x)) {xs : List γ} :
    Succeeds (xs.mapM f) s ↔ ∀ x ∈ xs, Succeeds (f x) s := by
  induction xs generalizing s with
  | nil => exact iff_of_true ⟨[], s, rfl⟩ nofun
  | cons x xs ih =>
    rw [List.mapM_cons, List.forall_mem_cons]
    constructor
    · rintro ⟨_, _, h⟩
      obtain ⟨a, s₁, ha, h⟩ := bind_ok.1 h
      obtain ⟨as, s₂, has, -⟩ := bind_ok.1 h
      exact ⟨⟨a, s₁, ha⟩, fun y hy => ((hf y).succeeds_iff s₁).2 (ih.1 ⟨as, s₂, has⟩ y hy)⟩
    · rintro ⟨⟨a, s₁, ha⟩, hxs⟩
      obtain ⟨as, s₂, has⟩ := ih.2 fun y hy => ((hf y).succeeds_iff s₁).1 (hxs y hy)
      exact ⟨a :: as, s₂, bind_ok.2 ⟨a, s₁, ha, bind_ok.2 ⟨as, s₂, has, rfl⟩⟩⟩

end Resolve

namespace Resolver

variable {r : Resolver} {depth levels levels' : Nat}

section Deepens

variable (hhooks : r.options.HookFree)

include hhooks

/-- A stored tree with a greater limit. -/
theorem resolve_deepens {depth' : Nat} (h : depth ≤ depth') (store : Store) :
    (r.withDepth depth).Deepens ((r.withDepth depth).resolve store)
      ((r.withDepth depth').resolve store) := by
  have hhooks' : (r.withDepth depth).options.HookFree := ⟨hhooks.fieldHooks, hhooks.callHooks⟩
  unfold resolve
  split
  · exact Deepens.refl _
  split
  · exact Deepens.refl _
  · rw [resolveTree_some, resolveTree_some]
    exact (expression_deepens hhooks' h _).bind fun _ => Deepens.refl _

end Deepens

/-- The limits with which a stored tree resolves to a filter are those from a least one on; with any
other it is refused. -/
structure Limited (r : Resolver) (store : Store) (filter : ResolvedFilter) (least : Nat) :
    Prop where
  enough : ∀ depth, least ≤ depth → ((r.withDepth depth).resolve store).run.1 = .ok filter
  short : ∀ depth, depth < least →
    ∃ pos, ((r.withDepth depth).resolve store).run.1 = .error (.invalidValue pos)

theorem exists_limited (hhooks : r.options.HookFree) {store : Store} {filter : ResolvedFilter}
    (h : ∃ depth, ((r.withDepth depth).resolve store).run.1 = .ok filter) :
    ∃ least, r.Limited store filter least := by
  classical
  obtain ⟨s, hs⟩ := run_eq_ok.1 (Nat.find_spec h)
  refine ⟨Nat.find h, fun depth hle => ?_, fun depth hlt => ?_⟩
  · exact run_eq_ok.2 ⟨s, (resolve_deepens hhooks hle store).within _ _ _ hs⟩
  · rcases resolve_deepens hhooks hlt.le store [] with hsame | ⟨pos, s', hdeep⟩
    · rw [hs] at hsame
      exact absurd (run_eq_ok.2 ⟨s, hsame⟩) (Nat.find_min h hlt)
    · exact ⟨pos, by rw [Resolve.run, hdeep]; rfl⟩

/-- The limits from the least one on are all with which the tree resolves at all. -/
theorem Limited.le_iff {store : Store} {filter : ResolvedFilter} {least : Nat}
    (h : r.Limited store filter least) :
    least ≤ depth ↔ ∃ f, ((r.withDepth depth).resolve store).run.1 = .ok f := by
  refine ⟨fun hle => ⟨filter, h.enough depth hle⟩, ?_⟩
  rintro ⟨f, hf⟩
  by_contra hlt
  obtain ⟨pos, herror⟩ := h.short depth (by omega)
  rw [hf] at herror
  cases herror

/-! ## The same operands -/

/-- An operand of an expression, with so many levels left. -/
def operand (r : Resolver) (levels : Nat) : Simple → Resolve Expr
  | .restriction x => r.restriction levels x
  | .composite c => r.expression levels c.expression

theorem operand_agree (hhooks : r.options.HookFree) (levels : Nat) (x : Simple) :
    Agree (r.operand levels x) (r.operand levels x) := by
  cases x with
  | restriction x =>
    have h := (@restriction_moved .nowhere r r.options.maxDepth hhooks levels x).agree
    exact h.trans h.symm
  | composite c =>
    have h := (@expression_moved .nowhere r r.options.maxDepth hhooks levels c.expression).agree
    exact h.trans h.symm

/-- A level of logic succeeds when all terms do. -/
theorem succeeds_logic_iff {f : Term → Resolve Expr} (hf : ∀ t, Agree (f t) (f t))
    (e : Expression) {s : List (Report ValueCause)} :
    Succeeds
      (do
        let sequences ← e.sequences.mapM fun s => do
          let factors ← s.factors.mapM fun x => do
            let terms ← x.terms.mapM f
            return Expr.disjunction terms
          return Expr.conjunction factors
        return Expr.conjunction sequences) s ↔
      ∀ y ∈ e.sequences, ∀ x ∈ y.factors, ∀ t ∈ x.terms, Succeeds (f t) s := by
  have hfactor (x : Factor) := (agree_mapM hf x.terms).bind fun terms =>
    agree_pure (Expr.disjunction terms)
  have hsequence (y : Sequence) := (agree_mapM hfactor y.factors).bind fun factors =>
    agree_pure (Expr.conjunction factors)
  rw [succeeds_map_iff, succeeds_mapM_iff hsequence]
  refine forall₂_congr fun y _ => ?_
  rw [succeeds_map_iff, succeeds_mapM_iff hfactor]
  refine forall₂_congr fun x _ => ?_
  rw [succeeds_map_iff, succeeds_mapM_iff hf]

/-- Whatever joins its operands, an expression resolves when each of them does one level down. -/
theorem succeeds_expression_iff (hhooks : r.options.HookFree) {e : Expression}
    {s : List (Report ValueCause)} :
    Succeeds (r.expression (levels + 1) e) s ↔
      ∀ x ∈ e.simples, Succeeds (r.operand levels x) s := by
  have hsimples : (∀ x ∈ e.simples, Succeeds (r.operand levels x) s) ↔
      ∀ y ∈ e.sequences, ∀ x ∈ y.factors, ∀ t ∈ x.terms,
        Succeeds (r.operand levels t.simple) s := by
    simp only [Expression.simples, List.mem_flatMap, List.mem_map]
    constructor
    · exact fun h y hy x hx t ht => h _ ⟨y, hy, x, hx, t, ht, rfl⟩
    · rintro h _ ⟨y, hy, x, hx, t, ht, rfl⟩
      exact h y hy x hx t ht
  rw [hsimples]
  refine (succeeds_logic_iff (fun t => ?_) e).trans ?_
  · obtain ⟨span, unary, simple, orPos⟩ := t
    cases simple with
    | restriction x =>
      exact (operand_agree hhooks levels (.restriction x)).bind fun _ => agree_pure _
    | composite c =>
      exact (operand_agree hhooks levels (.composite c)).bind fun _ => agree_pure _
  · refine forall₂_congr fun y _ => forall₂_congr fun x _ => forall₂_congr fun t _ => ?_
    obtain ⟨span, unary, simple, orPos⟩ := t
    cases simple with
    | restriction x => exact succeeds_map_iff
    | composite c => exact succeeds_map_iff

theorem mem_simples_repeated {copies : Nat} {e : Expression} {x : Simple} :
    x ∈ (e.repeated copies).simples ↔ x ∈ e.simples := by
  simp only [Expression.repeated, Expression.simples, List.mem_flatMap, List.mem_append,
    List.mem_flatten, List.mem_replicate]
  constructor
  · rintro ⟨y, hy | ⟨ys, ⟨-, rfl⟩, hy⟩, hx⟩
    · exact ⟨y, hy, hx⟩
    · exact ⟨y, hy, hx⟩
  · rintro ⟨y, hy, hx⟩
    exact ⟨y, .inl hy, hx⟩

/-- Trees with the same operands resolve with the same levels. -/
theorem succeeds_expression_congr (hhooks : r.options.HookFree) {e e' : Expression}
    (h : ∀ x, x ∈ e'.simples ↔ x ∈ e.simples) {s : List (Report ValueCause)} :
    Succeeds (r.expression levels e') s ↔ Succeeds (r.expression levels e) s := by
  cases levels with
  | zero => refine iff_of_false ?_ ?_ <;> rintro ⟨v, s', h⟩ <;> cases h
  | succ levels =>
    rw [succeeds_expression_iff hhooks, succeeds_expression_iff hhooks]
    exact forall_congr' fun x => imp_congr_left (h x)

theorem exists_resolve_load_iff {store : Store} {e : Expression} :
    (∃ f, (r.resolve (store.load (some e))).run.1 = .ok f) ↔
      Succeeds (r.expression r.options.maxDepth e) [] := by
  simp only [resolve_load, run_eq_ok, resolveTree_ok]
  constructor
  · rintro ⟨f, v, ⟨s, hv⟩, -⟩
    exact ⟨v, s, hv⟩
  · rintro ⟨v, s, hv⟩
    exact ⟨_, v, ⟨s, hv⟩, rfl⟩

/-- Trees with the same operands have the same least limit. -/
theorem Limited.congr (hhooks : r.options.HookFree) {before before' : Store} {e e' : Expression}
    {filter : ResolvedFilter} {least : Nat} (h : r.Limited (before.load (some e)) filter least)
    (hsame : ∀ x, x ∈ e'.simples ↔ x ∈ e.simples) :
    ∃ filter', r.Limited (before'.load (some e')) filter' least := by
  have hlimits (depth : Nat) :
      (∃ f, ((r.withDepth depth).resolve (before'.load (some e'))).run.1 = .ok f) ↔
        least ≤ depth := by
    have hhooks' : (r.withDepth depth).options.HookFree := ⟨hhooks.fieldHooks, hhooks.callHooks⟩
    rw [h.le_iff, exists_resolve_load_iff, exists_resolve_load_iff,
      succeeds_expression_congr hhooks' hsame]
  obtain ⟨filter', hfilter'⟩ := (hlimits least).2 le_rfl
  obtain ⟨least', hleast'⟩ := exists_limited hhooks ⟨least, hfilter'⟩
  have heq : least' = least :=
    eq_of_forall_ge_iff fun depth => hleast'.le_iff.trans (hlimits depth)
  exact ⟨filter', heq ▸ hleast'⟩

/-- The resolver with another limit does what the resolver does with as many levels. -/
theorem succeeds_withDepth_iff (hhooks : r.options.HookFree) {e : Expression}
    {s : List (Report ValueCause)} :
    Succeeds ((r.withDepth depth).expression levels e) s ↔ Succeeds (r.expression levels e) s := by
  have hhooks' : (r.withDepth depth).options.HookFree := ⟨hhooks.fieldHooks, hhooks.callHooks⟩
  constructor
  · rintro ⟨v, s', h⟩
    exact ⟨v, s', (@expression_deepens (r.withDepth depth) levels levels hhooks' r.options.maxDepth
      le_rfl e).within s v s' h⟩
  · rintro ⟨v, s', h⟩
    exact ⟨v, s', (expression_deepens hhooks le_rfl e).within s v s' h⟩

/-- The least limit is the length of the longest chain of tasks that starts with the tree. -/
theorem Limited.isGreatest_chain (hhooks : r.options.HookFree) {before : Store} {e : Expression}
    {filter : ResolvedFilter} {least : Nat} (h : r.Limited (before.load (some e)) filter least) :
    IsGreatest {n | r.Chain (.expression e) n} least := by
  refine Resolver.isGreatest_chain hhooks fun levels => ?_
  rw [h.le_iff, exists_resolve_load_iff]
  exact (succeeds_withDepth_iff hhooks).symm

/-- A filter without text needs no levels. -/
theorem Limited.of_empty {before : Store} {filter : ResolvedFilter} {least : Nat}
    (h : r.Limited (before.load none) filter least) : least = 0 := by
  by_contra hne
  obtain ⟨pos, herror⟩ := h.short 0 (by omega)
  rw [resolve_load] at herror
  cases herror

/-- The limit of resolution is a threshold. A filter that resolves with some limit resolves to the
same with every limit from a least one on, and is refused with every smaller one. The least one is
the length of the longest chain of nested tasks, so the number of siblings plays no part anywhere,
be they operands, elements, arguments or entries. Any tree with the same operands has the same least
limit, whatever joins them and however often each stands there; so has the tree with all its
sequences any number of times more. -/
theorem resolve_withDepth (hhooks : r.options.HookFree) {o : ParserOptions} {input : String}
    {before store : Store} (hstore : before.reparse o input = .ok store) {filter : ResolvedFilter}
    (h : (r.resolve store).run.1 = .ok filter) :
    ∃ least, r.Limited store filter least ∧ (store.tree? = none → least = 0) ∧
      ∀ e, store.tree? = some e → IsGreatest {n | r.Chain (.expression e) n} least ∧
        ∀ before' : Store,
          (∀ e' : Expression, (∀ x, x ∈ e'.simples ↔ x ∈ e.simples) →
            ∃ filter', r.Limited (before'.load (some e')) filter' least) ∧
          ∀ copies,
            ∃ filter', r.Limited (before'.load (some (e.repeated copies))) filter' least := by
  obtain ⟨least, hleast⟩ := exists_limited hhooks ⟨r.options.maxDepth, h⟩
  obtain ⟨x, -, rfl⟩ := Store.reparse_ok.1 hstore
  refine ⟨least, hleast, fun hempty => ?_, fun e he => ?_⟩
  · rw [Store.tree?_load] at hempty
    subst hempty
    exact hleast.of_empty
  · rw [Store.tree?_load] at he
    subst he
    exact ⟨hleast.isGreatest_chain hhooks, fun before' => ⟨fun e' => hleast.congr hhooks,
      fun copies => hleast.congr hhooks fun _ => mem_simples_repeated⟩⟩

end Resolver

/-- A group in a group, and an array in an array with many elements: four levels are enough, and
three are not, also when all of it stands there six times. -/
theorem nested_groups_depth : ∃ store filter filter' e,
    Store.empty.reparse .allExtensions
      "name = at AND counts.x = (1 OR (NOT 2)) AND counts.x IN [[1, 2, 3, 4, 5], [now()]]" =
        .ok store ∧
    store.tree? = some e ∧ eventResolver.Limited store filter 4 ∧
    IsGreatest {n | eventResolver.Chain (.expression e) n} 4 ∧
    eventResolver.Limited (Store.empty.load (some (e.repeated 5))) filter' 4 := by
  obtain ⟨store, hstore, h⟩ := exists_of_any
    (Store.empty.reparse .allExtensions
      "name = at AND counts.x = (1 OR (NOT 2)) AND counts.x IN [[1, 2, 3, 4, 5], [now()]]")
    (fun s => s.tree?.isSome && (eventResolver.resolve s).run.1.toOption.any (fun _ => true) &&
      ((eventResolver.withDepth 4).resolve s).run.1.toOption.any (fun _ => true) &&
      !((eventResolver.withDepth 3).resolve s).run.1.toOption.any fun _ => true)
    (by decide +kernel)
  simp only [Bool.and_eq_true, Bool.not_eq_true'] at h
  obtain ⟨⟨⟨htree, hfilter⟩, hfour⟩, hthree⟩ := h
  obtain ⟨e, he⟩ := Option.isSome_iff_exists.1 htree
  obtain ⟨filter, hfilter, -⟩ := exists_of_any _ _ hfilter
  obtain ⟨least, hleast, -, htrees⟩ :=
    Resolver.resolve_withDepth eventResolver_hookFree hstore hfilter
  have hle : least ≤ 4 := by
    obtain ⟨filter, hfour, -⟩ := exists_of_any _ _ hfour
    exact hleast.le_iff.2 ⟨filter, hfour⟩
  have hlt : ¬ least ≤ 3 := by
    intro hle
    obtain ⟨filter, hfilter⟩ := hleast.le_iff.1 hle
    rw [hfilter] at hthree
    cases hthree
  obtain rfl : least = 4 := by omega
  obtain ⟨hchain, hcopies⟩ := htrees e he
  obtain ⟨filter', hfilter'⟩ := (hcopies .empty).2 5
  exact ⟨store, filter, filter', e, hstore, he, hleast, hchain, hfilter'⟩

end ListQuery.Filter
