/-
Places are for failures only. A tree whose places are moved resolves to what the tree resolves to,
or fails where it fails, at the place moved; and a resolver with another limit that starts with as
many levels does the same (`Resolver.innerAt_moved`, `Resolver.expression_moved`).
-/
import ListQuery.Proofs.Resolve.Balance
import ListQuery.Proofs.Resolve.Levels
import ListQuery.Proofs.Resolve.Paths
import ListQuery.Proofs.Tree.Moved

namespace ListQuery.Filter

namespace Leaf

variable (m : Move) (l : Leaf)

@[simp] theorem moved_integer? : (l.moved m).integer? = l.integer? := rfl
@[simp] theorem moved_float? : (l.moved m).float? = l.float? := rfl
@[simp] theorem moved_bytes? : (l.moved m).bytes? = l.bytes? := rfl

end Leaf

/-- The failure at the place where it goes. -/
def FilterError.moved (m : Move) : FilterError → FilterError
  | .invalidSyntax pos => .invalidSyntax (m.pos pos)
  | .invalidValue pos => .invalidValue (m.pos pos)
  | e => e

namespace Resolve

variable {α β γ : Type} {m : Move}

/-- Both steps give the same value, or both fail and the second one fails where the first one does,
moved; whatever has been reported. -/
def Moves (m : Move) (x y : Resolve α) : Prop :=
  ∀ s t, (∃ a s' t', x s = .ok a s' ∧ y t = .ok a t') ∨
    ∃ e s' t', x s = .error e s' ∧ y t = .error (e.moved m) t'

theorem moves_pure (a : α) : Moves m (pure a) (pure a) := fun s t => .inl ⟨a, s, t, rfl, rfl⟩

theorem moves_fail (pos : Position) (cause cause' : ValueCause) :
    Moves m (fail pos cause : Resolve α) (fail (m.pos pos) cause') :=
  fun _ _ => .inr ⟨_, _, _, rfl, rfl⟩

theorem moves_fail_at {pos pos' : Position} (h : pos' = m.pos pos) (cause cause' : ValueCause) :
    Moves m (fail pos cause : Resolve α) (fail pos' cause') := by
  rw [h]
  exact moves_fail pos cause cause'

theorem moves_throw (reason : String) :
    Moves m (throw (.internal reason) : Resolve α) (throw (.internal reason)) :=
  fun _ _ => .inr ⟨_, _, _, rfl, rfl⟩

theorem Moves.bind {x y : Resolve α} {f g : α → Resolve β} (h : Moves m x y)
    (hf : ∀ a, Moves m (f a) (g a)) : Moves m (x >>= f) (y >>= g) := by
  intro s t
  rcases h s t with ⟨a, s', t', hx, hy⟩ | ⟨e, s', t', hx, hy⟩
  · have hf := hf a s' t'
    simpa only [Bind.bind, EStateM.bind, hx, hy] using hf
  · exact .inr ⟨e, s', t', by simp only [Bind.bind, EStateM.bind, hx],
      by simp only [Bind.bind, EStateM.bind, hy]⟩

theorem moves_ite {c : Prop} [Decidable c] {x x' y y' : Resolve α} (hx : Moves m x x')
    (hy : Moves m y y') : Moves m (if c then x else y) (if c then x' else y') := by
  split
  · exact hx
  · exact hy

theorem moves_mapM {u : γ → γ} {f g : γ → Resolve α} (h : ∀ x, Moves m (f x) (g (u x))) :
    ∀ xs : List γ, Moves m (xs.mapM f) ((xs.map u).mapM g)
  | [] => moves_pure []
  | x :: xs => by
    rw [List.map_cons, List.mapM_cons, List.mapM_cons]
    exact (h x).bind fun a => (moves_mapM h xs).bind fun as => moves_pure (a :: as)

end Resolve

open Resolve

variable {m : Move}

/-! ## Leaves and paths -/

theorem mismatch_moved {α : Type} (f : Field) (l : Leaf) :
    Moves m (mismatch f l : Resolve α) (mismatch f (l.moved m)) :=
  moves_fail _ _ _

theorem integerLiteral_moved (f : Field) (l : Leaf) :
    Moves m (integerLiteral f l) (integerLiteral f (l.moved m)) := by
  simp only [integerLiteral, Leaf.moved_kind, Leaf.moved_integer?]
  refine moves_ite (mismatch_moved f l) ?_
  split
  · exact moves_fail _ _ _
  · exact moves_ite (moves_ite (moves_pure _) (moves_fail _ _ _))
      (moves_ite (moves_ite (moves_pure _) (moves_fail _ _ _)) (mismatch_moved f l))

theorem floatLiteral_moved (f : Field) (l : Leaf) :
    Moves m (floatLiteral f l) (floatLiteral f (l.moved m)) := by
  simp only [floatLiteral, Leaf.moved_float?]
  split
  · exact moves_ite (mismatch_moved f l) (moves_ite (moves_fail _ _ _) (moves_pure _))
  · exact mismatch_moved f l

theorem mapKey_moved (key : Field) (l : Leaf) :
    Moves m (mapKey key l) (mapKey key (l.moved m)) := by
  refine moves_ite (moves_pure _) (moves_ite (moves_pure _) ?_)
  exact moves_ite (integerLiteral_moved key l) (mismatch_moved key l)

namespace Resolver

/-- The resolver with another limit. -/
def withDepth (r : Resolver) (depth : Nat) : Resolver :=
  { r with options := { r.options with maxDepth := depth } }

variable {r : Resolver} {depth : Nat}

@[simp] theorem withDepth_schema : (r.withDepth depth).schema = r.schema := rfl

@[simp] theorem withDepth_allowIndirect :
    (r.withDepth depth).options.allowIndirect = r.options.allowIndirect := rfl

@[simp] theorem withDepth_function? (name : String) :
    (r.withDepth depth).options.function? name = r.options.function? name := rfl

theorem withDepth_maxDepth (r : Resolver) : r.withDepth r.options.maxDepth = r := rfl

theorem select_moved (levels : Nat) (message : Message) (path : List Leaf) :
    Moves m (r.select levels message path)
      ((r.withDepth depth).select levels message (path.map (Leaf.moved m))) := by
  induction levels generalizing message path with
  | zero =>
    cases path with
    | nil => exact moves_throw _
    | cons leaf rest => exact moves_fail _ _ _
  | succ levels ih =>
    cases path with
    | nil => exact moves_throw _
    | cons leaf rest =>
      rw [List.map_cons, select, select]
      refine moves_ite (moves_fail _ _ _) ?_
      simp only [Leaf.moved_unquoted, withDepth_schema]
      split
      · exact moves_fail _ _ _
      · cases rest with
        | nil => exact moves_pure _
        | cons next remaining =>
          refine moves_ite ?_ ?_
          · split
            · exact moves_throw _
            · exact moves_throw _
            · refine (mapKey_moved _ next).bind fun k => ?_
              cases remaining with
              | nil => exact moves_pure _
              | cons first more =>
                simp only [List.map_cons]
                split
                · exact moves_fail _ _ _
                · exact (ih _ (first :: more)).bind fun _ => moves_pure _
          · split
            · exact (ih _ (next :: remaining)).bind fun _ => moves_pure _
            · exact moves_fail _ _ _

theorem selectRoot_moved (levels : Nat) (path : List Leaf) :
    Moves m (r.selectRoot levels path)
      ((r.withDepth depth).selectRoot levels (path.map (Leaf.moved m))) :=
  select_moved levels r.root path

section Members

variable (levels : Nat) (f : Field) (x : Member) (mode : ValueMode)

theorem noFields_moved : Moves m (noFields x) (noFields (x.moved m)) := by
  obtain ⟨span, value, fields⟩ := x
  cases fields with
  | nil => exact moves_pure ()
  | cons extra fields => exact moves_fail _ _ _

theorem indirect_moved :
    Moves m (r.indirect levels x mode) ((r.withDepth depth).indirect levels (x.moved m) mode) :=
  moves_ite ((selectRoot_moved levels x.path).bind fun _ => moves_pure _) (moves_fail _ _ _)

theorem indirectOnly_moved : Moves m (r.indirectOnly levels f x mode)
    ((r.withDepth depth).indirectOnly levels f (x.moved m) mode) :=
  moves_ite (indirect_moved levels x mode) (mismatch_moved f x.value)

theorem nullValue_moved : Moves m (nullValue f x mode) (nullValue f (x.moved m) mode) :=
  (noFields_moved x).bind fun _ => moves_ite (moves_pure _) (moves_fail _ _ _)

theorem numericValue_moved : Moves m (r.numericValue levels f x mode)
    ((r.withDepth depth).numericValue levels f (x.moved m) mode) := by
  refine moves_ite ?_ (indirectOnly_moved levels f x mode)
  refine (noFields_moved x).bind fun _ => moves_ite ?_ ?_
  · exact (floatLiteral_moved f x.value).bind fun _ => moves_pure _
  · exact (integerLiteral_moved f x.value).bind fun _ => moves_pure _

theorem boolValue_moved : Moves m (r.boolValue levels f x mode)
    ((r.withDepth depth).boolValue levels f (x.moved m) mode) :=
  moves_ite ((noFields_moved x).bind fun _ => moves_pure _) (indirectOnly_moved levels f x mode)

theorem stringValue_moved : Moves m (r.stringValue levels x mode)
    ((r.withDepth depth).stringValue levels (x.moved m) mode) :=
  moves_ite (indirect_moved levels x mode) ((noFields_moved x).bind fun _ => moves_pure _)

theorem bytesValue_moved : Moves m (r.bytesValue levels f x mode)
    ((r.withDepth depth).bytesValue levels f (x.moved m) mode) := by
  refine moves_ite (indirect_moved levels x mode) ((noFields_moved x).bind fun _ => ?_)
  simp only [Member.moved_value, Leaf.moved_bytes?]
  split
  · exact moves_pure _
  · exact mismatch_moved f x.value

theorem enumValue_moved : Moves m (r.enumValue levels f x mode)
    ((r.withDepth depth).enumValue levels f (x.moved m) mode) := by
  refine moves_ite ?_ (mismatch_moved f x.value)
  simp only [Member.moved_value, Leaf.moved_unquoted, withDepth_schema]
  split
  · exact (noFields_moved x).bind fun _ => moves_pure _
  · exact moves_ite (indirect_moved levels x mode) (moves_fail _ _ _)

theorem timestampValue_moved : Moves m (r.timestampValue levels f x mode)
    ((r.withDepth depth).timestampValue levels f (x.moved m) mode) := by
  refine moves_ite ((noFields_moved x).bind fun _ => ?_) (indirectOnly_moved levels f x mode)
  simp only [Member.moved_value, Leaf.moved_unquoted]
  split
  · exact moves_pure _
  · exact moves_fail _ _ _

theorem durationValue_moved : Moves m (r.durationValue levels f x mode)
    ((r.withDepth depth).durationValue levels f (x.moved m) mode) := by
  refine moves_ite ((noFields_moved x).bind fun _ => ?_) (indirectOnly_moved levels f x mode)
  simp only [Member.moved_value, Leaf.moved_unquoted]
  split
  · exact moves_pure _
  · exact moves_fail _ _ _

theorem memberValue_moved : Moves m (r.memberValue levels f x mode)
    ((r.withDepth depth).memberValue levels f (x.moved m) mode) := by
  refine moves_ite (nullValue_moved f x mode)
    (moves_ite (indirectOnly_moved levels f x mode) ?_)
  simp only [withDepth_schema]
  split
  · exact timestampValue_moved levels f x mode
  · exact durationValue_moved levels f x mode
  · exact indirectOnly_moved levels f x mode
  split
  · exact boolValue_moved levels f x mode
  · exact stringValue_moved levels x mode
  · exact bytesValue_moved levels f x mode
  · exact enumValue_moved levels f x mode
  · exact indirectOnly_moved levels f x mode
  · exact indirectOnly_moved levels f x mode
  · exact numericValue_moved levels f x mode

end Members

/-! ## Calls and literals -/

/-- Resolution one level down moves with a tree. -/
structure Inner.Moves (m : Move) (inner inner' : Inner) : Prop where
  comparable : ∀ f c mode,
    Resolve.Moves m (inner.comparable f c mode) (inner'.comparable f (c.moved m) mode)
  group : ∀ f e mode, Resolve.Moves m (inner.group f e mode) (inner'.group f (e.moved m) mode)
  dynamic : ∀ c mode, Resolve.Moves m (inner.dynamic c mode) (inner'.dynamic (c.moved m) mode)

variable {inner inner' : Inner} (hi : inner.Moves m inner') (mode : ValueMode)

include hi

theorem argValue_moved (f : Field) (arg : Arg) :
    Moves m (argValue inner f arg mode) (argValue inner' f (arg.moved m) mode) := by
  cases arg with
  | composite c =>
    simp only [Arg.moved, argValue, Composite.moved_expression]
    exact hi.group f c.expression mode
  | comparable c => exact hi.comparable f c mode

theorem callArgs_moved (s : Signature) (index : Nat) (args : List Arg) :
    Moves m (callArgs inner s mode index args)
      (callArgs inner' s mode index (args.map (Arg.moved m))) := by
  induction args generalizing index with
  | nil => exact moves_pure []
  | cons arg args ih =>
    rw [List.map_cons, callArgs, callArgs]
    split
    · exact moves_throw _
    · exact (argValue_moved hi mode.required _ arg).bind fun _ => (ih _).bind fun _ =>
        moves_pure _

theorem plainCall_moved (c : Call) (name : String) (target : Option Field) :
    Moves m (r.plainCall inner c name target mode)
      ((r.withDepth depth).plainCall inner' (c.moved m) name target mode) := by
  simp only [plainCall, Call.moved_args, withDepth_function?, withDepth_schema,
    List.length_map]
  split
  · exact moves_fail_at (c.moved_start m) _ _
  · refine moves_ite (moves_fail_at (c.moved_start m) _ _) ?_
    refine (callArgs_moved hi mode _ 0 c.args).bind fun es => ?_
    split
    · exact moves_ite (moves_pure _) (moves_fail_at (c.moved_start m) _ _)
    · exact moves_pure _

theorem call_moved (hhooks : r.options.HookFree) (c : Call) (target : Option Field) :
    Moves m (r.call inner c target mode)
      ((r.withDepth depth).call inner' (c.moved m) target mode) := by
  have hnone (name : String) : lookup? name r.options.callHooks = none := by
    rw [hhooks.callHooks]
    rfl
  simp only [call, Call.moved_name, joinPath_moved, withDepth, hnone]
  exact plainCall_moved hi mode c _ target

theorem callValue_moved (hhooks : r.options.HookFree) (c : Call) (target : Option Field) :
    Moves m (r.callValue inner c target mode)
      ((r.withDepth depth).callValue inner' (c.moved m) target mode) :=
  (call_moved hi mode hhooks c target).bind fun _ =>
    moves_ite (moves_fail_at (c.moved_start m) _ _) (moves_pure _)

omit hi in
theorem checkStructName_moved (s : StructLiteral) (expected : String) (optional : Bool) :
    Moves m (checkStructName s expected optional)
      (checkStructName (s.moved m) expected optional) := by
  simp only [checkStructName, StructLiteral.moved_name, joinPath_moved, List.isEmpty_map]
  exact moves_ite (moves_ite (moves_pure _) (moves_fail_at (s.moved_start m) _ _))
    (moves_ite (moves_pure _) (moves_fail_at (s.moved_start m) _ _))

theorem dynamicEntries_moved (seen : List String) (entries : List StructEntry) :
    Moves m (dynamicEntries inner mode seen entries)
      (dynamicEntries inner' mode seen (entries.map (StructEntry.moved m))) := by
  induction entries generalizing seen with
  | nil => exact moves_pure []
  | cons entry entries ih =>
    rw [List.map_cons, dynamicEntries, dynamicEntries]
    simp only [StructEntry.moved_name, StructEntry.moved_value, Leaf.moved_unquoted]
    exact moves_ite (moves_fail _ _ _)
      ((hi.dynamic entry.value mode).bind fun _ => (ih _).bind fun _ => moves_pure _)

theorem dynamicMap_moved (s : StructLiteral) :
    Moves m (dynamicMap inner s mode) (dynamicMap inner' (s.moved m) mode) := by
  refine (checkStructName_moved s _ true).bind fun _ => ?_
  rw [StructLiteral.moved_entries]
  exact (dynamicEntries_moved hi mode [] s.entries).bind fun _ => moves_pure _

theorem instantEntries_moved (w : WellKnown) (message : Message) (seconds nanos : Option Int)
    (entries : List StructEntry) :
    Moves m (instantEntries inner w message seconds nanos entries)
      (instantEntries inner' w message seconds nanos (entries.map (StructEntry.moved m))) := by
  induction entries generalizing seconds nanos with
  | nil => exact moves_pure _
  | cons entry entries ih =>
    rw [List.map_cons, instantEntries, instantEntries]
    simp only [StructEntry.moved_name, StructEntry.moved_value, Leaf.moved_unquoted]
    refine moves_ite (moves_fail _ _ _) (moves_ite (moves_fail _ _ _) ?_)
    split
    · exact moves_throw _
    · refine (hi.comparable _ entry.value .direct).bind fun e => ?_
      split
      · exact moves_ite (ih _ _) (ih _ _)
      · exact moves_fail _ _ _

theorem instant_moved (f : Field) (s : StructLiteral) (w : WellKnown) :
    Moves m (r.instant inner f s w) ((r.withDepth depth).instant inner' f (s.moved m) w) := by
  refine (checkStructName_moved s _ true).bind fun _ => ?_
  simp only [StructLiteral.moved_entries, withDepth_schema]
  split
  · exact moves_throw _
  · exact instantEntries_moved hi w _ none none s.entries

theorem timestampStruct_moved (f : Field) (s : StructLiteral) :
    Moves m (r.timestampStruct inner f s)
      ((r.withDepth depth).timestampStruct inner' f (s.moved m)) := by
  refine (instant_moved hi f s .timestamp).bind fun x => ?_
  dsimp only
  split
  · exact moves_pure _
  · exact moves_fail_at (s.moved_start m) _ _

theorem durationStruct_moved (f : Field) (s : StructLiteral) :
    Moves m (r.durationStruct inner f s)
      ((r.withDepth depth).durationStruct inner' f (s.moved m)) := by
  refine (instant_moved hi f s .duration).bind fun x => ?_
  dsimp only
  split
  · exact moves_pure _
  · exact moves_fail_at (s.moved_start m) _ _

theorem messageEntries_moved (message : Message) (seen : List String)
    (entries : List StructEntry) :
    Moves m (messageEntries inner message mode seen entries)
      (messageEntries inner' message mode seen (entries.map (StructEntry.moved m))) := by
  induction entries generalizing seen with
  | nil => exact moves_pure []
  | cons entry entries ih =>
    rw [List.map_cons, messageEntries, messageEntries]
    simp only [StructEntry.moved_name, StructEntry.moved_value, Leaf.moved_unquoted]
    split
    · exact moves_fail _ _ _
    · exact moves_ite (moves_fail _ _ _)
        ((hi.comparable _ entry.value _).bind fun _ => (ih _).bind fun _ => moves_pure _)

theorem messageStruct_moved (f : Field) (s : StructLiteral) :
    Moves m (r.messageStruct inner f s mode)
      ((r.withDepth depth).messageStruct inner' f (s.moved m) mode) := by
  simp only [messageStruct, withDepth_schema]
  split
  · exact moves_throw _
  · refine (checkStructName_moved s _ false).bind fun _ => ?_
    rw [StructLiteral.moved_entries]
    exact (messageEntries_moved hi mode _ [] s.entries).bind fun _ => moves_pure _

theorem mapEntries_moved (key value : Field) (seen : List MapKey)
    (entries : List StructEntry) :
    Moves m (mapEntries inner key value mode seen entries)
      (mapEntries inner' key value mode seen (entries.map (StructEntry.moved m))) := by
  induction entries generalizing seen with
  | nil => exact moves_pure []
  | cons entry entries ih =>
    rw [List.map_cons, mapEntries, mapEntries]
    simp only [StructEntry.moved_name, StructEntry.moved_value, Leaf.moved_unquoted]
    exact (mapKey_moved key entry.name).bind fun _ => moves_ite (moves_fail _ _ _)
      ((hi.comparable value entry.value mode).bind fun _ => (ih _).bind fun _ => moves_pure _)

theorem mapStruct_moved (f : Field) (s : StructLiteral) :
    Moves m (mapStruct inner f s mode) (mapStruct inner' f (s.moved m) mode) := by
  simp only [mapStruct, StructLiteral.moved_name, StructLiteral.moved_entries,
    List.isEmpty_map]
  refine moves_ite (moves_fail_at (s.moved_start m) _ _) ?_
  split
  · exact moves_throw _
  · exact moves_throw _
  · exact (mapEntries_moved hi mode _ _ [] s.entries).bind fun _ => moves_pure _

theorem structValue_moved (f : Field) (s : StructLiteral) :
    Moves m (r.structValue inner f s mode)
      ((r.withDepth depth).structValue inner' f (s.moved m) mode) := by
  refine moves_ite (mapStruct_moved hi mode f s) ?_
  simp only [withDepth_schema]
  split
  · exact timestampStruct_moved hi f s
  · exact durationStruct_moved hi f s
  · exact dynamicMap_moved hi mode s
  · exact hi.dynamic (.struct s) mode
  · exact moves_ite (messageStruct_moved hi mode f s) (moves_fail_at (s.moved_start m) _ _)

theorem comparableBody_moved (hhooks : r.options.HookFree) (levels : Nat) (f : Field)
    (c : Comparable) :
    Moves m (r.comparableBody levels inner f c mode)
      ((r.withDepth depth).comparableBody levels inner' f (c.moved m) mode) := by
  cases c with
  | array a =>
    simp only [Comparable.moved, ArrayLiteral.moved_elements, comparableBody]
    exact moves_ite (moves_fail_at (a.moved_start m) _ _)
      ((moves_mapM (fun e => hi.comparable f e mode) a.elements).bind fun _ => moves_pure _)
  | call c => exact callValue_moved hi mode hhooks c (some f)
  | struct s => exact structValue_moved hi mode f s
  | member x =>
    exact moves_ite (hi.dynamic (.member x) mode) (memberValue_moved levels f x mode)

omit hi mode in
/-- A level of logic over groups: the same operators around operands that move. -/
theorem moves_logic {f g : Term → Resolve Expr} (h : ∀ t, Moves m (f t) (g (t.moved m)))
    (e : Expression) :
    Moves m
      (do
        let sequences ← e.sequences.mapM fun s => do
          let factors ← s.factors.mapM fun x => do
            let terms ← x.terms.mapM f
            return Expr.disjunction terms
          return Expr.conjunction factors
        return Expr.conjunction sequences)
      (do
        let sequences ← (e.moved m).sequences.mapM fun s => do
          let factors ← s.factors.mapM fun x => do
            let terms ← x.terms.mapM g
            return Expr.disjunction terms
          return Expr.conjunction factors
        return Expr.conjunction sequences) := by
  rw [Expression.moved_sequences]
  refine (moves_mapM (fun s => ?_) e.sequences).bind fun _ => moves_pure _
  rw [Sequence.moved_factors]
  refine (moves_mapM (fun x => ?_) s.factors).bind fun _ => moves_pure _
  rw [Factor.moved_terms]
  exact (moves_mapM h x.terms).bind fun _ => moves_pure _

theorem groupBody_moved (f : Field) (e : Expression) :
    Moves m (groupBody inner f e mode) (groupBody inner' f (e.moved m) mode) := by
  refine moves_logic (fun t => ?_) e
  simp only [Term.moved_simple, Term.moved_unary]
  cases t.simple with
  | composite c =>
    simp only [Simple.moved, Composite.moved_expression]
    exact (hi.group f c.expression mode).bind fun _ => moves_pure _
  | restriction x =>
    obtain ⟨span, comparable, comparison⟩ := x
    cases comparison with
    | none => exact (hi.comparable f comparable mode).bind fun _ => moves_pure _
    | some c =>
      obtain ⟨comparator, pos, arg⟩ := c
      exact (moves_fail pos _ _).bind fun _ => moves_pure _

theorem dynamicBody_moved (hhooks : r.options.HookFree) (c : Comparable) :
    Moves m (r.dynamicBody inner c mode)
      ((r.withDepth depth).dynamicBody inner' (c.moved m) mode) := by
  cases c with
  | member x => exact (noFields_moved x).bind fun _ => moves_pure _
  | struct s => exact dynamicMap_moved hi mode s
  | array a =>
    simp only [Comparable.moved, ArrayLiteral.moved_elements, dynamicBody]
    exact (moves_mapM (fun e => hi.dynamic e mode) a.elements).bind fun _ => moves_pure _
  | call c => exact callValue_moved hi mode hhooks c none

omit hi mode

theorem innerAt_moved (hhooks : r.options.HookFree) (levels : Nat) :
    (r.innerAt levels).Moves m ((r.withDepth depth).innerAt levels) := by
  induction levels with
  | zero =>
    refine ⟨fun f c mode => ?_, fun f e mode => ?_, fun c mode => ?_⟩
    · simp only [innerAt, comparableValue]
      exact moves_fail_at (c.moved_start m) _ _
    · simp only [innerAt, groupValue]
      exact moves_fail_at (e.moved_start m) _ _
    · simp only [innerAt, dynamicValue]
      exact moves_fail_at (c.moved_start m) _ _
  | succ levels ih =>
    refine ⟨fun f c mode => ?_, fun f e mode => ?_, fun c mode => ?_⟩
    · simp only [innerAt, comparableValue]
      exact comparableBody_moved ih mode hhooks levels f c
    · simp only [innerAt, groupValue]
      exact groupBody_moved ih mode f e
    · simp only [innerAt, dynamicValue]
      exact dynamicBody_moved ih mode hhooks c

/-- A tree of a single term resolves as what the term is, one level further down: there is nothing
to join, and nothing to negate. -/
theorem expression_of_single {levels : Nat} {e : Expression} {x : Simple} (h : e.Single x) :
    r.expression (levels + 1) e = match x with
      | .restriction x => r.restriction levels x
      | .composite c => r.expression levels c.expression := by
  obtain ⟨a, b, c, d, rfl⟩ := h
  funext s
  simp only [expression, expressionBody, List.mapM_cons, List.mapM_nil, pure_bind, bind_assoc,
    Option.isSome_none, Bool.false_eq_true, ↓reduceIte, Expr.disjunction, Expr.conjunction,
    bind_pure]
  cases x <;> rfl

theorem expression_single {levels : Nat} {e : Expression} {x : Restriction}
    (h : e.Single (.restriction x)) : r.expression (levels + 1) e = r.restriction levels x :=
  expression_of_single h

variable (hhooks : r.options.HookFree) (levels : Nat)

include hhooks

theorem alone_moved (c : Comparable) :
    Moves m (r.alone levels c) ((r.withDepth depth).alone levels (c.moved m)) := by
  cases c with
  | member x =>
    simp only [Comparable.moved, alone, Member.moved_value, Member.moved_path,
      joinPath_moved]
    exact moves_ite ((selectRoot_moved levels x.path).bind fun _ => moves_pure _) (moves_pure _)
  | call c => exact call_moved (innerAt_moved hhooks levels) _ hhooks c none
  | struct s => exact moves_fail_at (s.moved_start m) _ _
  | array a => exact moves_fail_at (a.moved_start m) _ _

theorem leftSide_moved (c : Comparable) :
    Moves m (r.leftSide levels c) ((r.withDepth depth).leftSide levels (c.moved m)) := by
  cases c with
  | member x => exact (selectRoot_moved levels x.path).bind fun _ => moves_pure _
  | call c =>
    simp only [Comparable.moved, leftSide, Call.moved_name, joinPath_moved,
      withDepth_function?]
    split
    · exact moves_fail_at (c.moved_start m) _ _
    · exact (call_moved (innerAt_moved hhooks levels) _ hhooks c none).bind fun _ =>
        moves_pure _
  | struct s => exact moves_fail_at (s.moved_start m) _ _
  | array a => exact moves_fail_at (a.moved_start m) _ _

omit hhooks in
theorem namesRepeated_moved (arg : Arg) :
    Moves m (r.namesRepeated levels arg)
      ((r.withDepth depth).namesRepeated levels (arg.moved m)) := by
  cases arg with
  | composite c => exact moves_pure _
  | comparable c =>
    cases c with
    | member x => exact (selectRoot_moved levels x.path).bind fun _ => moves_pure _
    | call c => exact moves_pure _
    | struct s => exact moves_pure _
    | array a => exact moves_pure _

theorem rightSide_moved (target : Field) (c : Comparison) :
    Moves m (r.rightSide levels target c)
      ((r.withDepth depth).rightSide levels target (c.moved m)) := by
  have hi := @innerAt_moved m r depth hhooks levels
  obtain ⟨comparator, pos, arg⟩ := c
  simp only [rightSide, Comparison.moved, withDepth_allowIndirect]
  split
  · refine moves_ite ?_ (argValue_moved hi _ target arg)
    split
    · exact moves_throw _
    · exact argValue_moved hi _ _ arg
  · refine (argValue_moved hi _ target arg).bind fun e => ?_
    have hchecked (accepted : Bool) :
        Moves m (if accepted = true then pure e else fail pos .needsArray)
          (if accepted = true then pure e else fail (m.pos pos) .needsArray) :=
      moves_ite (moves_pure e) (moves_fail pos _ _)
    split
    · exact (moves_pure true).bind hchecked
    · exact (moves_pure true).bind hchecked
    · exact (namesRepeated_moved levels arg).bind hchecked
    · exact (moves_pure false).bind hchecked
  · exact argValue_moved hi _ target arg

/-- Without hooks a comparison is resolved from its two sides. -/
theorem restriction_comparison (span : Span) (left : Comparable) (c : Comparison) :
    r.restriction levels ⟨span, left, some c⟩ = do
      let x ← r.leftSide levels left
      return .compare x.1 c.comparator (← r.rightSide levels x.2 c) := by
  have hnone (x : Expr × Field) : r.hooked ⟨span, left, some c⟩ c x.1 x.2 = pure none := by
    have hlookup (name : String) : lookup? name r.options.fieldHooks = none := by
      rw [hhooks.fieldHooks]
      rfl
    unfold hooked
    split
    · rw [hlookup]
    · rfl
  simp only [restriction, hnone, pure_bind]

theorem restriction_moved (x : Restriction) :
    Moves m (r.restriction levels x)
      ((r.withDepth depth).restriction levels (x.moved m)) := by
  obtain ⟨span, comparable, comparison⟩ := x
  cases comparison with
  | none => exact alone_moved hhooks levels comparable
  | some c =>
    have hhooks' : (r.withDepth depth).options.HookFree := ⟨hhooks.fieldHooks, hhooks.callHooks⟩
    rw [Restriction.moved, restriction_comparison hhooks, restriction_comparison hhooks',
      c.moved_comparator]
    exact (leftSide_moved hhooks levels comparable).bind fun x =>
      (rightSide_moved hhooks levels x.2 c).bind fun _ => moves_pure _

theorem expression_moved (e : Expression) :
    Moves m (r.expression levels e) ((r.withDepth depth).expression levels (e.moved m)) := by
  induction levels generalizing e with
  | zero =>
    rw [expression, expression]
    exact moves_fail_at (e.moved_start m) _ _
  | succ levels ih =>
    rw [expression, expression]
    refine moves_logic (fun t => ?_) e
    simp only [Term.moved_simple, Term.moved_unary]
    cases t.simple with
    | composite c =>
      simp only [Simple.moved, Composite.moved_expression]
      exact (ih c.expression).bind fun _ => moves_pure _
    | restriction x =>
      exact (restriction_moved hhooks levels x).bind fun _ => moves_pure _

/-- A tree whose places are moved resolves to what the tree resolves to. -/
theorem resolveTree_moved (e : Expression) :
    Moves m (r.resolveTree (some e)) (r.resolveTree (some (e.moved m))) := by
  rw [resolveTree_some, resolveTree_some]
  exact (@expression_moved m r r.options.maxDepth hhooks _ e).bind fun _ => moves_pure _

end Resolver

end ListQuery.Filter
