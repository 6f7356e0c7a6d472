/-
Handles with less room for an index. A loader decides nothing by the handles that it stores, and
arenas only grow while it runs. So where the nodes that are there in the end have all had room, it
has stored the same as with all the room there is (`Loader.Fitting`). Main statement:
`Store.reparse32_ok`.
-/
import ListQuery.Filter.Load
import ListQuery.Proofs.Store.Graph

namespace ListQuery.Filter

/-- Two ways to keep an index keep that of every node alike. -/
def Store.Fits (keep keep' : Nat → Nat) (s : Store) : Prop :=
  ∀ k, ∀ i < (s.arena k).size, keep i = keep' i

theorem Store.Fits.of_le {keep keep' : Nat → Nat} {s t : Store} (h : t.Fits keep keep')
    (hle : ∀ k, (s.arena k).size ≤ (t.arena k).size) : s.Fits keep keep' :=
  fun k i hi => h k i (Nat.lt_of_lt_of_le hi (hle k))

namespace Loader

variable {α β : Type} {keep keep' : Nat → Nat}

/-- Where a run has come to. -/
def reached : EStateM.Result FilterError LoadState α → LoadState
  | .ok _ s => s
  | .error _ s => s

/-- Loaders that differ in how they keep an index. All nodes stay, and if those in the end are all
kept alike, the two runs are the same. -/
structure Fitting (keep keep' : Nat → Nat) (q q' : Loader α) : Prop where
  grows : ∀ s k, (s.store.arena k).size ≤ ((reached (q s)).store.arena k).size
  same : ∀ s, (reached (q s)).store.Fits keep keep' → q s = q' s

namespace Fitting

/-- A step that stores nothing. -/
theorem quiet {q : Loader α} (h : ∀ s k, ((reached (q s)).store.arena k).size =
    (s.store.arena k).size) : Fitting keep keep' q q :=
  ⟨fun s k => Nat.le_of_eq (h s k).symm, fun _ _ => rfl⟩

theorem pure (a : α) : Fitting keep keep' (Pure.pure a) (Pure.pure a) := .quiet fun _ _ => rfl

theorem bind {q q' : Loader α} {f f' : α → Loader β} (hq : Fitting keep keep' q q')
    (hf : ∀ a, Fitting keep keep' (f a) (f' a)) :
    Fitting keep keep' (q >>= f) (q' >>= f') := by
  have hrun (q : Loader α) (f : α → Loader β) (s : LoadState) :
      (q >>= f) s = match q s with
        | .ok a s' => f a s'
        | .error e s' => .error e s' := by
    change EStateM.bind q f s = _
    unfold EStateM.bind
    cases q s <;> rfl
  constructor
  · intro s k
    have hgrows := hq.grows s k
    rw [hrun]
    cases hqs : q s with
    | ok a s' =>
      rw [hqs] at hgrows
      exact Nat.le_trans hgrows ((hf a).grows s' k)
    | error e s' =>
      rw [hqs] at hgrows
      exact hgrows
  · intro s hfits
    have hsame := hq.same s
    rw [hrun] at hfits ⊢
    rw [hrun]
    cases hqs : q s with
    | ok a s' =>
      rw [hqs] at hfits hsame
      rw [← hsame (hfits.of_le ((hf a).grows s'))]
      exact (hf a).same s' hfits
    | error e s' =>
      rw [hqs] at hfits hsame
      rw [← hsame hfits]

theorem ite {P : Prop} [Decidable P] {q q' r r' : Loader α} (hq : Fitting keep keep' q q')
    (hr : Fitting keep keep' r r') :
    Fitting keep keep' (if P then q else r) (if P then q' else r') := by
  split
  · exact hq
  · exact hr

end Fitting

/-! ## Steps that store nothing -/

theorem next_fitting : Fitting keep keep' next next := .quiet fun _ _ => rfl

theorem peek_fitting : Fitting keep keep' peek peek := .quiet fun _ _ => rfl

theorem peekKind_fitting : Fitting keep keep' peekKind peekKind := .quiet fun _ _ => rfl

theorem eat_fitting (kind : Kind) : Fitting keep keep' (eat kind) (eat kind) := by
  refine .quiet fun s k => ?_
  unfold eat
  dsimp only
  split <;> rfl

theorem skipBlank_fitting : Fitting keep keep' skipBlank skipBlank := eat_fitting _

theorem checkpoint_fitting : Fitting keep keep' checkpoint checkpoint := .quiet fun _ _ => rfl

theorem restore_fitting (saved : Checkpoint) :
    Fitting keep keep' (restore saved) (restore saved) := .quiet fun _ _ => rfl

theorem spanFrom_fitting (start : Position) :
    Fitting keep keep' (spanFrom start) (spanFrom start) := .quiet fun _ _ => rfl

theorem leave_fitting : Fitting keep keep' leave leave := .quiet fun _ _ => rfl

theorem enter_fitting (o : ParserOptions) : Fitting keep keep' (enter o) (enter o) := by
  refine .quiet fun s k => ?_
  unfold enter
  dsimp only
  split <;> rfl

theorem fail_fitting (pos : Position) (cause : SyntaxCause) :
    Fitting keep keep' (fail pos cause : Loader α) (fail pos cause) := .quiet fun _ _ => rfl

theorem unexpected_fitting (t : Token) (what : String) :
    Fitting keep keep' (unexpected t what : Loader α) (unexpected t what) :=
  .ite (.quiet fun _ _ => rfl) (fail_fitting _ _)

theorem expect_fitting (kind : Kind) (what : String) :
    Fitting keep keep' (expect kind what) (expect kind what) :=
  next_fitting.bind fun t => .ite (.pure t) (unexpected_fitting t what)

theorem leaf_fitting (t : Token) (what : String) :
    Fitting keep keep' (leaf t what) (leaf t what) := by
  unfold leaf
  split
  · exact .pure _
  · exact unexpected_fitting t what

theorem requireSpace_fitting (o : ParserOptions) (blank : Option Token) (place : String) :
    Fitting keep keep' (requireSpace o blank place) (requireSpace o blank place) := by
  refine .ite ?_ (.pure ())
  cases blank with
  | some t => exact .ite (.pure ()) (fail_fitting _ _)
  | none => exact peek_fitting.bind fun t => fail_fitting _ _

theorem innerBlank_fitting (o : ParserOptions) (place : String) :
    Fitting keep keep' (innerBlank o place) (innerBlank o place) := by
  refine skipBlank_fitting.bind fun blank => ?_
  cases blank with
  | some t => exact .ite (fail_fitting _ _) (.pure ())
  | none => exact .pure ()

theorem keywordIsOperator_fitting :
    Fitting keep keep' keywordIsOperator keywordIsOperator :=
  checkpoint_fitting.bind fun saved => next_fitting.bind fun _ => skipBlank_fitting.bind fun _ =>
    peekKind_fitting.bind fun _ => (restore_fitting saved).bind fun _ => .pure _

theorem startsFactor_fitting (o : ParserOptions) :
    Fitting keep keep' (startsFactor o) (startsFactor o) := by
  refine peekKind_fitting.bind fun kind => ?_
  split
  case h_1 | h_2 => exact keywordIsOperator_fitting.bind fun _ => .pure _
  all_goals exact .pure _

theorem checkName_fitting (path : List Leaf) (what : String) :
    Fitting keep keep' (checkName path what) (checkName path what) := by
  unfold checkName
  split
  · exact fail_fitting _ _
  · exact .pure ()

theorem dottedLeaf_fitting : Fitting keep keep' dottedLeaf dottedLeaf :=
  peekKind_fitting.bind fun _ => .ite
    (next_fitting.bind fun _ => next_fitting.bind fun t => (leaf_fitting t _).bind fun _ => .pure _)
    (.pure _)

theorem comparator_fitting (o : ParserOptions) (t : Token) :
    Fitting keep keep' (comparator? o t) (comparator? o t) :=
  .ite (.ite (keywordIsOperator_fitting.bind fun _ => .ite (.pure _) (.pure _)) (.pure _)) (.pure _)

theorem unary_fitting (o : ParserOptions) : Fitting keep keep' (unary o) (unary o) := by
  refine peekKind_fitting.bind fun kind => ?_
  split
  · refine keywordIsOperator_fitting.bind fun _ => .ite ?_ (.pure _)
    exact next_fitting.bind fun _ => skipBlank_fitting.bind fun blank =>
      (requireSpace_fitting o blank _).bind fun _ => .pure _
  · exact next_fitting.bind fun _ => (innerBlank_fitting o _).bind fun _ => .pure _
  · exact .pure _

theorem size_modify {τ ν : Type} {tag : τ} (a : Arena tag ν) (h : Handle tag) (f : ν → ν) :
    (a.modify h f).size = a.size := by
  unfold Arena.modify Arena.size
  split
  · exact Array.size_modify
  · rfl

theorem link_fitting (h : Handle NodeSort.term) (pos : Position) :
    Fitting keep keep' (link h pos) (link h pos) := by
  refine .quiet fun s k => ?_
  cases k
  case term => exact size_modify _ _ _
  all_goals rfl

theorem joiner_fitting (o : ParserOptions) (word : Kind) (before after : String)
    {note : Position → Loader Unit} (hnote : ∀ pos, Fitting keep keep' (note pos) (note pos)) :
    Fitting keep keep' (joiner o word before after note) (joiner o word before after note) := by
  refine checkpoint_fitting.bind fun saved => skipBlank_fitting.bind fun blank =>
    peekKind_fitting.bind fun _ => ?_
  have hback : Fitting keep keep'
      (do
        restore saved
        return false)
      (do
        restore saved
        return false) := (restore_fitting saved).bind fun _ => .pure _
  refine .ite (keywordIsOperator_fitting.bind fun _ => .ite ?_ hback) hback
  exact (requireSpace_fitting o blank _).bind fun _ => next_fitting.bind fun t =>
    (hnote t.pos).bind fun _ => skipBlank_fitting.bind fun blank =>
      (requireSpace_fitting o blank _).bind fun _ => .pure _

theorem add_fitting (k : NodeSort) (n : k.Node) :
    Fitting keep keep' (add keep (Store.put k n)) (add keep' (Store.put k n)) := by
  constructor
  · intro s l
    change _ ≤ ((Store.put k n s.store).2.arena l).size
    by_cases hl : l = k
    · subst hl
      rw [Store.arena_put, Arena.size_alloc]
      exact Nat.le_succ _
    · exact Nat.le_of_eq (by rw [Store.arena_put_of_ne hl])
  · intro s hfits
    have hindex : (Store.put k n s.store).1.index = (s.store.arena k).size := by
      rw [Store.put_handle]
      rfl
    have hsame : keep (Store.put k n s.store).1.index = keep' (Store.put k n s.store).1.index := by
      refine hfits k _ ?_
      change _ < ((Store.put k n s.store).2.arena k).size
      rw [hindex, Store.arena_put, Arena.size_alloc]
      exact Nat.lt_succ_self _
    exact congrArg
      (fun i => EStateM.Result.ok (⟨i, (Store.put k n s.store).1.generation⟩ : Handle k)
        { s with store := (Store.put k n s.store).2 }) hsame

theorem repeatStep_fitting {step step' : α → Loader (Option α)}
    (h : ∀ last, Fitting keep keep' (step last) (step' last)) :
    ∀ fuel first,
      Fitting keep keep' (repeatStep step fuel first) (repeatStep step' fuel first) := by
  intro fuel
  induction fuel with
  | zero => exact fun _ => .pure _
  | succ fuel ih =>
    intro last
    refine (h last).bind fun x => ?_
    cases x with
    | none => exact .pure _
    | some a => exact (ih a).bind fun _ => .pure _

theorem many_fitting {step step' : α → Loader (Option α)}
    (h : ∀ last, Fitting keep keep' (step last) (step' last)) (first : α) :
    Fitting keep keep' (many step first) (many step' first) :=
  ⟨fun s => (repeatStep_fitting h _ first).grows s, fun s => (repeatStep_fitting h _ first).same s⟩

section

variable (o : ParserOptions) (b : Parser.Brackets) {item item' : Loader α}
  (h : Fitting keep keep' item item')

include h

theorem itemsFrom_fitting :
    ∀ fuel, Fitting keep keep' (itemsFrom o b item fuel) (itemsFrom o b item' fuel) := by
  intro fuel
  induction fuel with
  | zero => exact .pure _
  | succ fuel ih =>
    exact h.bind fun _ => (innerBlank_fitting o _).bind fun _ => next_fitting.bind fun t => .ite
      ((innerBlank_fitting o _).bind fun _ => ih.bind fun _ => .pure _)
      (.ite (.pure _) (unexpected_fitting t _))

theorem delimited_fitting :
    Fitting keep keep' (delimited o b item) (delimited o b item') := by
  refine (innerBlank_fitting o _).bind fun _ => (eat_fitting b.close).bind fun x => ?_
  cases x with
  | some _ => exact .pure _
  | none =>
    exact ⟨fun s => (itemsFrom_fitting o b h _).grows s,
      fun s => (itemsFrom_fitting o b h _).same s⟩

end

/-! ## Productions -/

structure Inner.Fitting (keep keep' : Nat → Nat) (inner inner' : Inner) : Prop where
  expression : Loader.Fitting keep keep' inner.expression inner'.expression
  comparable : Loader.Fitting keep keep' inner.comparable inner'.comparable

section

variable (o : ParserOptions) {inner inner' : Inner} (hi : inner.Fitting keep keep' inner')

theorem member_fitting (start : Position) (value : Leaf) (fields : List Leaf) :
    Fitting keep keep' (member keep start value fields) (member keep' start value fields) :=
  (spanFrom_fitting start).bind fun span =>
    (add_fitting .member ⟨span, value, fields⟩).bind fun _ => .pure _

include hi

theorem composite_fitting : Fitting keep keep' (composite keep inner) (composite keep' inner') :=
  (expect_fitting _ _).bind fun opening => skipBlank_fitting.bind fun _ =>
    hi.expression.bind fun e => skipBlank_fitting.bind fun _ => (expect_fitting _ _).bind fun _ =>
      (spanFrom_fitting opening.pos).bind fun span => add_fitting .composite ⟨span, e⟩

theorem arg_fitting : Fitting keep keep' (arg keep inner) (arg keep' inner') :=
  peekKind_fitting.bind fun _ => .ite ((composite_fitting hi).bind fun _ => .pure _)
    (hi.comparable.bind fun _ => .pure _)

theorem call_fitting (name : List Leaf) (start : Position) :
    Fitting keep keep' (call o keep inner name start) (call o keep' inner' name start) :=
  (expect_fitting _ _).bind fun _ => (delimited_fitting o _ (arg_fitting hi)).bind fun args =>
    (spanFrom_fitting start).bind fun span => add_fitting .call ⟨span, name, args⟩

theorem arrayLiteral_fitting :
    Fitting keep keep' (arrayLiteral o keep inner) (arrayLiteral o keep' inner') :=
  (expect_fitting _ _).bind fun opening => (delimited_fitting o _ hi.comparable).bind fun elements =>
    (spanFrom_fitting opening.pos).bind fun span => add_fitting .array ⟨span, elements⟩

theorem structEntry_fitting :
    Fitting keep keep' (structEntry o inner) (structEntry o inner') :=
  next_fitting.bind fun t => (leaf_fitting t _).bind fun _ => (innerBlank_fitting o _).bind fun _ =>
    (expect_fitting _ _).bind fun _ => (innerBlank_fitting o _).bind fun _ =>
      hi.comparable.bind fun _ => .pure _

theorem structLiteral_fitting (name : List Leaf) (start : Position) :
    Fitting keep keep' (structLiteral o keep inner name start)
      (structLiteral o keep' inner' name start) :=
  (expect_fitting _ _).bind fun _ =>
    (delimited_fitting o _ (structEntry_fitting o hi)).bind fun entries =>
      (spanFrom_fitting start).bind fun span => add_fitting .struct ⟨span, name, entries⟩

theorem nameRun_fitting : Fitting keep keep' (nameRun o keep inner) (nameRun o keep' inner') := by
  refine next_fitting.bind fun first => (leaf_fitting first _).bind fun value =>
    (many_fitting (fun _ => dottedLeaf_fitting) value).bind fun fields =>
      peekKind_fitting.bind fun kind => ?_
  cases kind
  case leftParen =>
    exact (checkName_fitting _ _).bind fun _ => (call_fitting o hi _ _).bind fun _ => .pure _
  case leftBrace =>
    exact .ite ((checkName_fitting _ _).bind fun _ =>
      (structLiteral_fitting o hi _ _).bind fun _ => .pure _) (member_fitting _ _ _)
  all_goals exact member_fitting _ _ _

theorem comparableBody_fitting :
    Fitting keep keep' (comparableBody o keep inner) (comparableBody o keep' inner') :=
  peek_fitting.bind fun t => .ite ((arrayLiteral_fitting o hi).bind fun _ => .pure _)
    (.ite ((structLiteral_fitting o hi [] t.pos).bind fun _ => .pure _)
      (.ite (nameRun_fitting o hi) (next_fitting.bind fun _ => unexpected_fitting t _)))

theorem restriction_fitting :
    Fitting keep keep' (restriction o keep inner) (restriction o keep' inner') := by
  refine peek_fitting.bind fun first => hi.comparable.bind fun c =>
    checkpoint_fitting.bind fun saved => skipBlank_fitting.bind fun _ => peek_fitting.bind fun t =>
      (comparator_fitting o t).bind fun x => ?_
  cases x with
  | some comparator =>
    exact next_fitting.bind fun _ => skipBlank_fitting.bind fun _ => (arg_fitting hi).bind fun a =>
      (spanFrom_fitting first.pos).bind fun span =>
        add_fitting .restriction ⟨span, c, some ⟨comparator, t.pos, a⟩⟩
  | none =>
    exact (restore_fitting saved).bind fun _ => (spanFrom_fitting first.pos).bind fun span =>
      add_fitting .restriction ⟨span, c, none⟩

theorem simple_fitting : Fitting keep keep' (simple o keep inner) (simple o keep' inner') :=
  peekKind_fitting.bind fun _ => .ite ((composite_fitting hi).bind fun _ => .pure _)
    ((restriction_fitting o hi).bind fun _ => .pure _)

theorem term_fitting : Fitting keep keep' (term o keep inner) (term o keep' inner') :=
  peek_fitting.bind fun first => (unary_fitting o).bind fun unary =>
    (simple_fitting o hi).bind fun simple => (spanFrom_fitting first.pos).bind fun span =>
      add_fitting .term ⟨span, unary, simple, none⟩

theorem orTerm_fitting (last : Handle NodeSort.term) :
    Fitting keep keep' (orTerm o keep inner last) (orTerm o keep' inner' last) :=
  (joiner_fitting o _ _ _ (link_fitting last)).bind fun _ =>
    .ite ((term_fitting o hi).bind fun _ => .pure _) (.pure _)

theorem factor_fitting : Fitting keep keep' (factor o keep inner) (factor o keep' inner') :=
  peek_fitting.bind fun start => (term_fitting o hi).bind fun first =>
    (many_fitting (orTerm_fitting o hi) first).bind fun others =>
      (spanFrom_fitting start.pos).bind fun span => add_fitting .factor ⟨span, first :: others⟩

theorem nextFactor_fitting :
    Fitting keep keep' (nextFactor o keep inner) (nextFactor o keep' inner') := by
  refine checkpoint_fitting.bind fun saved => skipBlank_fitting.bind fun blank => ?_
  cases blank with
  | none => exact .pure _
  | some blank =>
    exact (startsFactor_fitting o).bind fun _ => .ite
      ((requireSpace_fitting o _ _).bind fun _ => (factor_fitting o hi).bind fun _ => .pure _)
      ((restore_fitting saved).bind fun _ => .pure _)

theorem sequence_fitting : Fitting keep keep' (sequence o keep inner) (sequence o keep' inner') :=
  peek_fitting.bind fun start => (factor_fitting o hi).bind fun first =>
    (many_fitting (fun _ => nextFactor_fitting o hi) first).bind fun others =>
      (spanFrom_fitting start.pos).bind fun span => add_fitting .sequence ⟨span, first :: others⟩

theorem andSequence_fitting :
    Fitting keep keep' (andSequence o keep inner) (andSequence o keep' inner') :=
  (joiner_fitting o _ _ _ fun _ => .pure ()).bind fun _ =>
    .ite ((sequence_fitting o hi).bind fun _ => .pure _) (.pure _)

theorem expressionBody_fitting :
    Fitting keep keep' (expressionBody o keep inner) (expressionBody o keep' inner') :=
  peek_fitting.bind fun start => (sequence_fitting o hi).bind fun first =>
    (many_fitting (fun _ => andSequence_fitting o hi) first).bind fun others =>
      leave_fitting.bind fun _ => (spanFrom_fitting start.pos).bind fun span =>
        add_fitting .expression ⟨span, first :: others⟩

end

theorem nested_fitting (o : ParserOptions) : ∀ fuel,
    (⟨expression o keep fuel, comparable o keep fuel⟩ : Inner).Fitting keep keep'
      ⟨expression o keep' fuel, comparable o keep' fuel⟩ := by
  intro fuel
  induction fuel with
  | zero => exact ⟨.quiet fun _ _ => rfl, .quiet fun _ _ => rfl⟩
  | succ fuel ih =>
    have hexpression := (enter_fitting o).bind fun _ => expressionBody_fitting o ih
    have hcomparable := (enter_fitting o).bind fun _ =>
      (comparableBody_fitting o ih).bind fun c => leave_fitting.bind fun _ => .pure c
    exact ⟨⟨fun s => hexpression.grows s, fun s => hexpression.same s⟩,
      ⟨fun s => hcomparable.grows s, fun s => hcomparable.same s⟩⟩

theorem filter_fitting (o : ParserOptions) :
    Fitting keep keep' (filter o keep) (filter o keep') := by
  have hroot : Fitting keep keep' (expression o keep (o.maxDepth + 1))
      (expression o keep' (o.maxDepth + 1)) :=
    (nested_fitting o (o.maxDepth + 1)).expression
  refine skipBlank_fitting.bind fun _ => peekKind_fitting.bind fun _ => .ite (.pure ()) ?_
  refine hroot.bind fun root => skipBlank_fitting.bind fun _ => next_fitting.bind fun t => ?_
  refine .ite (.quiet fun s k => ?_) (unexpected_fitting t _)
  change ((reached ((if 0 < s.lexer.errorCount then throw (.invalidSyntax s.lexer.position)
    else set { s with store.root := some root } : Loader Unit) s)).store.arena k).size = _
  split
  · rfl
  · cases k <;> rfl

end Loader

namespace Store

/-- Where all nodes of the store have had room, nothing depends on how much more there was. -/
theorem reparseReporting_keep {before store : Store} {keep keep' : Nat → Nat} {o : ParserOptions}
    {input : String} {reports : List (Report SyntaxCause)}
    (h : before.reparseReporting keep o input = (.ok store, reports))
    (hfits : store.Fits keep keep') :
    before.reparseReporting keep' o input = (.ok store, reports) := by
  have hsame := (@Loader.filter_fitting keep keep' o).same
    { lexer := .ofString input, store := before.release }
  unfold reparseReporting at h ⊢
  cases hrun : Loader.filter o keep { lexer := .ofString input, store := before.release } with
  | error e s => simp [hrun] at h
  | ok x s =>
    simp only [hrun, Prod.mk.injEq, Except.ok.injEq] at h hsame
    obtain ⟨rfl, rfl⟩ := h
    rw [← hsame hfits]

/-- As long as there are no more nodes of a sort than indices, 32 bits are enough. -/
theorem fits_word {s : Store} (h : ∀ k, (s.arena k).size ≤ UInt32.size) :
    s.Fits (fun i => (UInt32.ofNat i).toNat) id :=
  fun k _ hi => UInt32.toNat_ofNat_of_lt' (Nat.lt_of_lt_of_le hi (h k))

/-- Reading with 32 bits for an index gives the same store, if it has no more nodes of a sort than
there are indices. -/
theorem reparse32_ok {before store : Store} {o : ParserOptions} {input : String}
    (hsize : ∀ k, (store.arena k).size ≤ UInt32.size) :
    before.reparse32 o input = .ok store ↔ before.reparse o input = .ok store := by
  have hkeep := fits_word hsize
  have hkeep' : store.Fits id fun i => (UInt32.ofNat i).toNat := fun k i hi => (hkeep k i hi).symm
  constructor
  · intro h
    exact congrArg Prod.fst (reparseReporting_keep (Prod.ext h rfl) hkeep)
  · intro h
    exact congrArg Prod.fst (reparseReporting_keep (Prod.ext h rfl) hkeep')

end Store

end ListQuery.Filter
