/-
More levels of nesting change nothing but whether a run goes too deep. The levels left are only
asked whether there is one more, by a path and by the three functions that go down a level, and
where there is none the run fails. So a run goes the same way with more levels unless it runs out of
them (`Resolver.Deepens`), and what a restriction resolves to does not depend on how deep it stands
(`Resolver.restriction_within`). The limit itself is only told in reports, and whether fields may
stand for values is for each place to say; so the second run may be one of a resolver with other
limits (`Resolver.withLimits`).

Each function is run with two collections of levels below, of which the second goes on as the first
does (`Inner.Deepen`).
-/
import ListQuery.Filter.Resolve.Resolver

namespace ListQuery.Filter

namespace Resolve

variable {α β : Type}

theorem bind_ok {x : Resolve α} {f : α → Resolve β} {s s' : List (Report ValueCause)} {b : β} :
    (x >>= f) s = .ok b s' ↔ ∃ a s₁, x s = .ok a s₁ ∧ f a s₁ = .ok b s' := by
  simp only [bind, EStateM.bind]
  constructor
  · intro h
    split at h
    · rename_i a s₁ hx
      exact ⟨a, s₁, hx, h⟩
    · cases h
  · rintro ⟨a, s₁, hx, hf⟩
    rw [hx]
    exact hf

/-- Whatever value the first step gives, the second gives it too. -/
def Within (x y : Resolve α) : Prop := ∀ s a s', x s = .ok a s' → y s = .ok a s'

end Resolve

open Resolve

namespace Resolver

variable {r : Resolver} {allow : Bool} {depth levels levels' : Nat}

/-- The resolver with another limit, and with or without fields in place of values. -/
def withLimits (r : Resolver) (allow : Bool) (depth : Nat) : Resolver :=
  { r with options := { r.options with allowIndirect := allow, maxDepth := depth } }

@[simp] theorem withLimits_schema : (r.withLimits allow depth).schema = r.schema := rfl
@[simp] theorem withLimits_root : (r.withLimits allow depth).root = r.root := rfl

@[simp] theorem withLimits_callHooks :
    (r.withLimits allow depth).options.callHooks = r.options.callHooks := rfl

@[simp] theorem withLimits_function? (name : String) :
    (r.withLimits allow depth).options.function? name = r.options.function? name := rfl

section Deepens

variable {α β : Type}

/-- The two steps do the same, unless the first goes too deep. -/
def Deepens (r : Resolver) (x y : Resolve α) : Prop :=
  ∀ s, x s = y s ∨ ∃ pos s', x s = r.tooDeep pos s'

theorem Deepens.refl (x : Resolve α) : r.Deepens x x := fun _ => .inl rfl

theorem Deepens.bind {x y : Resolve α} {f g : α → Resolve β} (hx : r.Deepens x y)
    (hf : ∀ a, r.Deepens (f a) (g a)) : r.Deepens (x >>= f) (y >>= g) := by
  intro s
  simp only [Bind.bind, EStateM.bind]
  rcases hx s with hx | ⟨pos, s', hx⟩
  · rw [hx]
    split
    · exact hf _ _
    · exact .inl rfl
  · rw [hx]
    exact .inr ⟨pos, s', rfl⟩

theorem Deepens.within {x y : Resolve α} (h : r.Deepens x y) : Within x y := by
  intro s a s' hx
  rcases h s with h | ⟨pos, s₁, h⟩
  · rwa [← h]
  · rw [h] at hx
    cases hx

theorem deepens_tooDeep (pos : Position) (y : Resolve α) : r.Deepens (r.tooDeep pos) y :=
  fun s => .inr ⟨pos, s, rfl⟩

theorem deepens_ite {c : Prop} [Decidable c] {x x' y y' : Resolve α} (hx : r.Deepens x x')
    (hy : r.Deepens y y') : r.Deepens (if c then x else y) (if c then x' else y') := by
  split
  · exact hx
  · exact hy

theorem deepens_mapM {γ : Type} {f g : γ → Resolve α} (h : ∀ x, r.Deepens (f x) (g x)) :
    ∀ xs : List γ, r.Deepens (xs.mapM f) (xs.mapM g)
  | [] => Deepens.refl _
  | x :: xs => by
    rw [List.mapM_cons, List.mapM_cons]
    exact (h x).bind fun a => (deepens_mapM h xs).bind fun as => Deepens.refl _

end Deepens

/-! ## Paths and members -/

theorem select_deepens (h : levels ≤ levels') (m : Message) (path : List Leaf) :
    r.Deepens (r.select levels m path) ((r.withLimits allow depth).select levels' m path) := by
  -- each segment takes a level on both sides
  induction levels generalizing levels' m path with
  | zero =>
    cases path with
    | nil => rw [select, select]; exact Deepens.refl _
    | cons leaf rest => rw [select]; exact deepens_tooDeep _ _
  | succ levels ih =>
    obtain ⟨levels', rfl⟩ : ∃ k, levels' = k + 1 := ⟨levels' - 1, by omega⟩
    have hle : levels ≤ levels' := by omega
    cases path with
    | nil => rw [select, select]; exact Deepens.refl _
    | cons leaf rest =>
      rw [select, select]
      simp only [withLimits_schema]
      refine deepens_ite (Deepens.refl _) ?_
      split
      · exact Deepens.refl _
      split
      · exact Deepens.refl _
      refine deepens_ite ?_ ?_
      · split
        · exact Deepens.refl _
        · exact Deepens.refl _
        refine (Deepens.refl _).bind fun k => ?_
        split
        · exact Deepens.refl _
        split
        · exact Deepens.refl _
        · exact (ih hle _ _).bind fun _ => Deepens.refl _
      · split
        · exact (ih hle _ _).bind fun _ => Deepens.refl _
        · exact Deepens.refl _

theorem selectRoot_deepens (h : levels ≤ levels') (path : List Leaf) :
    r.Deepens (r.selectRoot levels path) ((r.withLimits allow depth).selectRoot levels' path) :=
  select_deepens h r.root path

section Members

/-! Levels count for a member only where it stands for another field. -/

variable (h : levels ≤ levels') (f : Field) (m : Member) (mode : ValueMode)

include h

theorem indirect_deepens : r.Deepens (r.indirect levels m mode)
    ((r.withLimits allow depth).indirect levels' m mode) :=
  deepens_ite ((selectRoot_deepens h m.path).bind fun _ => Deepens.refl _) (Deepens.refl _)

theorem indirectOnly_deepens :
    r.Deepens (r.indirectOnly levels f m mode)
      ((r.withLimits allow depth).indirectOnly levels' f m mode) :=
  deepens_ite (indirect_deepens h m mode) (Deepens.refl _)

theorem numericValue_deepens :
    r.Deepens (r.numericValue levels f m mode)
      ((r.withLimits allow depth).numericValue levels' f m mode) :=
  deepens_ite (Deepens.refl _) (indirectOnly_deepens h f m mode)

theorem boolValue_deepens :
    r.Deepens (r.boolValue levels f m mode)
      ((r.withLimits allow depth).boolValue levels' f m mode) :=
  deepens_ite (Deepens.refl _) (indirectOnly_deepens h f m mode)

theorem stringValue_deepens :
    r.Deepens (r.stringValue levels m mode)
      ((r.withLimits allow depth).stringValue levels' m mode) :=
  deepens_ite (indirect_deepens h m mode) (Deepens.refl _)

theorem bytesValue_deepens :
    r.Deepens (r.bytesValue levels f m mode)
      ((r.withLimits allow depth).bytesValue levels' f m mode) :=
  deepens_ite (indirect_deepens h m mode) (Deepens.refl _)

theorem enumValue_deepens :
    r.Deepens (r.enumValue levels f m mode)
      ((r.withLimits allow depth).enumValue levels' f m mode) := by
  refine deepens_ite ?_ (Deepens.refl _)
  rw [withLimits_schema]
  split
  · exact Deepens.refl _
  · exact deepens_ite (indirect_deepens h m mode) (Deepens.refl _)

theorem timestampValue_deepens :
    r.Deepens (r.timestampValue levels f m mode)
      ((r.withLimits allow depth).timestampValue levels' f m mode) :=
  deepens_ite (Deepens.refl _) (indirectOnly_deepens h f m mode)

theorem durationValue_deepens :
    r.Deepens (r.durationValue levels f m mode)
      ((r.withLimits allow depth).durationValue levels' f m mode) :=
  deepens_ite (Deepens.refl _) (indirectOnly_deepens h f m mode)

theorem memberValue_deepens :
    r.Deepens (r.memberValue levels f m mode)
      ((r.withLimits allow depth).memberValue levels' f m mode) := by
  refine deepens_ite (Deepens.refl _) (deepens_ite (indirectOnly_deepens h f m mode) ?_)
  rw [withLimits_schema]
  split
  · exact timestampValue_deepens h f m mode
  · exact durationValue_deepens h f m mode
  · exact indirectOnly_deepens h f m mode
  split
  · exact boolValue_deepens h f m mode
  · exact stringValue_deepens h m mode
  · exact bytesValue_deepens h f m mode
  · exact enumValue_deepens h f m mode
  · exact indirectOnly_deepens h f m mode
  · exact indirectOnly_deepens h f m mode
  · exact numericValue_deepens h f m mode

end Members

/-! ## Calls and literals -/

/-- The second levels below go on as the first do, unless those go too deep. -/
structure Inner.Deepen (r : Resolver) (inner inner' : Inner) : Prop where
  comparable : ∀ f c mode, r.Deepens (inner.comparable f c mode) (inner'.comparable f c mode)
  group : ∀ f e mode, r.Deepens (inner.group f e mode) (inner'.group f e mode)
  dynamic : ∀ c mode, r.Deepens (inner.dynamic c mode) (inner'.dynamic c mode)

variable {inner inner' : Inner}

theorem argValue_deepens (hi : inner.Deepen r inner') (f : Field) (arg : Arg) (mode : ValueMode) :
    r.Deepens (argValue inner f arg mode) (argValue inner' f arg mode) := by
  cases arg with
  | composite c => exact hi.group f c.expression mode
  | comparable c => exact hi.comparable f c mode

theorem callArgs_deepens (hi : inner.Deepen r inner') (s : Signature) (mode : ValueMode)
    (index : Nat) (args : List Arg) :
    r.Deepens (callArgs inner s mode index args) (callArgs inner' s mode index args) := by
  induction args generalizing index with
  | nil => exact Deepens.refl _
  | cons arg args ih =>
    rw [callArgs, callArgs]
    split
    · exact Deepens.refl _
    · exact (argValue_deepens hi _ arg _).bind fun _ => (ih _).bind fun _ => Deepens.refl _

theorem plainCall_deepens (hi : inner.Deepen r inner') (c : Call) (name : String)
    (target : Option Field) (mode : ValueMode) :
    r.Deepens (r.plainCall inner c name target mode)
      ((r.withLimits allow depth).plainCall inner' c name target mode) := by
  unfold plainCall
  rw [withLimits_function?]
  split
  · exact Deepens.refl _
  · exact deepens_ite (Deepens.refl _)
      ((callArgs_deepens hi _ mode 0 c.args).bind fun _ => Deepens.refl _)

theorem call_deepens (hi : inner.Deepen r inner') (c : Call) (target : Option Field)
    (mode : ValueMode) :
    r.Deepens (r.call inner c target mode)
      ((r.withLimits allow depth).call inner' c target mode) := by
  unfold call
  dsimp only
  rw [withLimits_callHooks]
  split
  · exact plainCall_deepens hi c _ target mode
  · refine (Deepens.refl _).bind fun x => ?_
    split
    · exact Deepens.refl _
    · exact plainCall_deepens hi c _ target mode

theorem callValue_deepens (hi : inner.Deepen r inner') (c : Call) (target : Option Field)
    (mode : ValueMode) :
    r.Deepens (r.callValue inner c target mode)
      ((r.withLimits allow depth).callValue inner' c target mode) :=
  (call_deepens hi c target mode).bind fun _ => Deepens.refl _

theorem dynamicEntries_deepens (hi : inner.Deepen r inner') (mode : ValueMode) (seen : List String)
    (entries : List StructEntry) :
    r.Deepens (dynamicEntries inner mode seen entries)
      (dynamicEntries inner' mode seen entries) := by
  induction entries generalizing seen with
  | nil => exact Deepens.refl _
  | cons entry entries ih =>
    rw [dynamicEntries, dynamicEntries]
    exact deepens_ite (Deepens.refl _)
      ((hi.dynamic entry.value mode).bind fun _ => (ih _).bind fun _ => Deepens.refl _)

theorem dynamicMap_deepens (hi : inner.Deepen r inner') (s : StructLiteral) (mode : ValueMode) :
    r.Deepens (dynamicMap inner s mode) (dynamicMap inner' s mode) :=
  (Deepens.refl _).bind fun _ =>
    (dynamicEntries_deepens hi mode [] s.entries).bind fun _ => Deepens.refl _

theorem instantEntries_deepens (hi : inner.Deepen r inner') (w : WellKnown) (message : Message)
    (seconds nanos : Option Int) (entries : List StructEntry) :
    r.Deepens (instantEntries inner w message seconds nanos entries)
      (instantEntries inner' w message seconds nanos entries) := by
  induction entries generalizing seconds nanos with
  | nil => exact Deepens.refl _
  | cons entry entries ih =>
    rw [instantEntries, instantEntries]
    refine deepens_ite (Deepens.refl _) (deepens_ite (Deepens.refl _) ?_)
    split
    · exact Deepens.refl _
    refine (hi.comparable _ entry.value .direct).bind fun e => ?_
    split
    · exact deepens_ite (ih _ _) (ih _ _)
    · exact Deepens.refl _

theorem instant_deepens (hi : inner.Deepen r inner') (f : Field) (s : StructLiteral)
    (w : WellKnown) :
    r.Deepens (r.instant inner f s w) ((r.withLimits allow depth).instant inner' f s w) := by
  refine (Deepens.refl _).bind fun _ => ?_
  rw [withLimits_schema]
  split
  · exact Deepens.refl _
  · exact instantEntries_deepens hi w _ none none s.entries

theorem messageEntries_deepens (hi : inner.Deepen r inner') (message : Message) (mode : ValueMode)
    (seen : List String) (entries : List StructEntry) :
    r.Deepens (messageEntries inner message mode seen entries)
      (messageEntries inner' message mode seen entries) := by
  induction entries generalizing seen with
  | nil => exact Deepens.refl _
  | cons entry entries ih =>
    rw [messageEntries, messageEntries]
    split
    · exact Deepens.refl _
    · exact deepens_ite (Deepens.refl _)
        ((hi.comparable _ entry.value _).bind fun _ => (ih _).bind fun _ => Deepens.refl _)

theorem messageStruct_deepens (hi : inner.Deepen r inner') (f : Field) (s : StructLiteral)
    (mode : ValueMode) :
    r.Deepens (r.messageStruct inner f s mode)
      ((r.withLimits allow depth).messageStruct inner' f s mode) := by
  unfold messageStruct
  rw [withLimits_schema]
  split
  · exact Deepens.refl _
  · exact (Deepens.refl _).bind fun _ =>
      (messageEntries_deepens hi _ mode [] s.entries).bind fun _ => Deepens.refl _

theorem mapEntries_deepens (hi : inner.Deepen r inner') (key value : Field) (mode : ValueMode)
    (seen : List MapKey) (entries : List StructEntry) :
    r.Deepens (mapEntries inner key value mode seen entries)
      (mapEntries inner' key value mode seen entries) := by
  induction entries generalizing seen with
  | nil => exact Deepens.refl _
  | cons entry entries ih =>
    rw [mapEntries, mapEntries]
    exact (Deepens.refl _).bind fun _ => deepens_ite (Deepens.refl _)
      ((hi.comparable value entry.value mode).bind fun _ => (ih _).bind fun _ => Deepens.refl _)

theorem mapStruct_deepens (hi : inner.Deepen r inner') (f : Field) (s : StructLiteral)
    (mode : ValueMode) :
    r.Deepens (mapStruct inner f s mode) (mapStruct inner' f s mode) := by
  refine deepens_ite (Deepens.refl _) ?_
  split
  · exact Deepens.refl _
  · exact Deepens.refl _
  · exact (mapEntries_deepens hi _ _ mode [] s.entries).bind fun _ => Deepens.refl _

theorem structValue_deepens (hi : inner.Deepen r inner') (f : Field) (s : StructLiteral)
    (mode : ValueMode) :
    r.Deepens (r.structValue inner f s mode)
      ((r.withLimits allow depth).structValue inner' f s mode) := by
  refine deepens_ite (mapStruct_deepens hi f s mode) ?_
  rw [withLimits_schema]
  split
  · exact (instant_deepens hi f s .timestamp).bind fun _ => Deepens.refl _
  · exact (instant_deepens hi f s .duration).bind fun _ => Deepens.refl _
  · exact dynamicMap_deepens hi s mode
  · exact hi.dynamic (.struct s) mode
  · exact deepens_ite (messageStruct_deepens hi f s mode) (Deepens.refl _)

theorem comparableBody_deepens (h : levels ≤ levels') (hi : inner.Deepen r inner') (f : Field)
    (c : Comparable) (mode : ValueMode) :
    r.Deepens (r.comparableBody levels inner f c mode)
      ((r.withLimits allow depth).comparableBody levels' inner' f c mode) := by
  cases c with
  | array a =>
    exact deepens_ite (Deepens.refl _)
      ((deepens_mapM (fun e => hi.comparable f e mode) a.elements).bind fun _ => Deepens.refl _)
  | call c => exact callValue_deepens hi c (some f) mode
  | struct s => exact structValue_deepens hi f s mode
  | member m => exact deepens_ite (hi.dynamic _ mode) (memberValue_deepens h f m mode)

/-- A level of logic over groups: the same operators around operands of which the second go on as
the first do. -/
theorem deepens_logic {f g : Term → Resolve Expr} (h : ∀ t, r.Deepens (f t) (g t))
    (e : Expression) :
    r.Deepens
      (do
        let sequences ← e.sequences.mapM fun s => do
          let factors ← s.factors.mapM fun x => do
            let terms ← x.terms.mapM f
            return Expr.disjunction terms
          return Expr.conjunction factors
        return Expr.conjunction sequences)
      (do
        let sequences ← e.sequences.mapM fun s => do
          let factors ← s.factors.mapM fun x => do
            let terms ← x.terms.mapM g
            return Expr.disjunction terms
          return Expr.conjunction factors
        return Expr.conjunction sequences) := by
  refine (deepens_mapM (fun s => ?_) e.sequences).bind fun _ => Deepens.refl _
  refine (deepens_mapM (fun x => ?_) s.factors).bind fun _ => Deepens.refl _
  exact (deepens_mapM h x.terms).bind fun _ => Deepens.refl _

theorem groupBody_deepens (hi : inner.Deepen r inner') (f : Field) (e : Expression)
    (mode : ValueMode) :
    r.Deepens (groupBody inner f e mode) (groupBody inner' f e mode) := by
  refine deepens_logic (fun t => ?_) e
  dsimp only
  split
  · exact (hi.group f _ mode).bind fun _ => Deepens.refl _
  · split
    · exact Deepens.refl _
    · exact (hi.comparable f _ mode).bind fun _ => Deepens.refl _

theorem dynamicBody_deepens (hi : inner.Deepen r inner') (c : Comparable) (mode : ValueMode) :
    r.Deepens (r.dynamicBody inner c mode)
      ((r.withLimits allow depth).dynamicBody inner' c mode) := by
  cases c with
  | member m => exact Deepens.refl _
  | struct s => exact dynamicMap_deepens hi s mode
  | array a =>
    exact (deepens_mapM (fun e => hi.dynamic e mode) a.elements).bind fun _ => Deepens.refl _
  | call c => exact callValue_deepens hi c none mode

/-- By induction on the levels that are left on the first side. -/
theorem innerAt_deepens (h : levels ≤ levels') :
    (r.innerAt levels).Deepen r ((r.withLimits allow depth).innerAt levels') := by
  induction levels generalizing levels' with
  | zero =>
    refine ⟨fun f c mode => ?_, fun f e mode => ?_, fun c mode => ?_⟩
    · simp only [innerAt, comparableValue]
      exact deepens_tooDeep _ _
    · simp only [innerAt, groupValue]
      exact deepens_tooDeep _ _
    · simp only [innerAt, dynamicValue]
      exact deepens_tooDeep _ _
  | succ levels ih =>
    obtain ⟨levels', rfl⟩ : ∃ k, levels' = k + 1 := ⟨levels' - 1, by omega⟩
    have hle : levels ≤ levels' := by omega
    refine ⟨fun f c mode => ?_, fun f e mode => ?_, fun c mode => ?_⟩
    · simp only [innerAt, comparableValue]
      exact comparableBody_deepens hle (ih hle) f c mode
    · simp only [innerAt, groupValue]
      exact groupBody_deepens (ih hle) f e mode
    · simp only [innerAt, dynamicValue]
      exact dynamicBody_deepens (ih hle) c mode

theorem alone_deepens (h : levels ≤ levels') (c : Comparable) :
    r.Deepens (r.alone levels c) ((r.withLimits allow depth).alone levels' c) := by
  cases c with
  | member m =>
    exact deepens_ite ((selectRoot_deepens h m.path).bind fun _ => Deepens.refl _) (Deepens.refl _)
  | call c => exact call_deepens (innerAt_deepens h) c none _
  | struct s => exact Deepens.refl _
  | array a => exact Deepens.refl _

theorem leftSide_deepens (h : levels ≤ levels') (c : Comparable) :
    r.Deepens (r.leftSide levels c) ((r.withLimits allow depth).leftSide levels' c) := by
  cases c with
  | member m => exact (selectRoot_deepens h m.path).bind fun _ => Deepens.refl _
  | call c =>
    unfold leftSide
    dsimp only
    rw [withLimits_function?]
    split
    · exact Deepens.refl _
    · exact (call_deepens (innerAt_deepens h) c none _).bind fun _ => Deepens.refl _
  | struct s => exact Deepens.refl _
  | array a => exact Deepens.refl _

theorem namesRepeated_deepens (h : levels ≤ levels') (arg : Arg) :
    r.Deepens (r.namesRepeated levels arg)
      ((r.withLimits allow depth).namesRepeated levels' arg) := by
  unfold namesRepeated
  split
  · exact (selectRoot_deepens h _).bind fun _ => Deepens.refl _
  · exact Deepens.refl _

/-- The check of the right side of `IN`. -/
def checkIn (r : Resolver) (levels : Nat) (c : Comparison) (right : Expr) : Resolve Expr := do
  let accepted ← match right with
    | .array _ => pure true
    | .call .. => pure true
    | .field _ => r.namesRepeated levels c.arg
    | _ => pure false
  if accepted then return right else Resolve.fail c.pos .needsArray

theorem checkIn_deepens (h : levels ≤ levels') (c : Comparison) (right : Expr) :
    r.Deepens (r.checkIn levels c right) ((r.withLimits allow depth).checkIn levels' c right) := by
  unfold checkIn
  split
  · exact Deepens.refl _
  · exact Deepens.refl _
  · exact (namesRepeated_deepens h c.arg).bind fun _ => Deepens.refl _
  · exact Deepens.refl _

/-- The right side of `IN` is read first and then checked. -/
theorem rightSide_isIn {c : Comparison} (hc : c.comparator = .isIn) (target : Field) :
    r.rightSide levels target c =
      argValue (r.innerAt levels) target c.arg ⟨r.options.allowIndirect, false⟩ >>=
        r.checkIn levels c := by
  unfold rightSide
  rw [hc]
  rfl

theorem rightSide_deepens (h : levels ≤ levels') (target : Field) (c : Comparison) :
    r.Deepens (r.rightSide levels target c)
      ((r.withLimits r.options.allowIndirect depth).rightSide levels' target c) := by
  have hi : (r.innerAt levels).Deepen r
      ((r.withLimits r.options.allowIndirect depth).innerAt levels') := innerAt_deepens h
  by_cases hc : c.comparator = .isIn
  · rw [rightSide_isIn hc, rightSide_isIn hc]
    exact (argValue_deepens hi target c.arg _).bind fun e => checkIn_deepens h c e
  · unfold rightSide
    dsimp only
    split
    · refine deepens_ite ?_ (argValue_deepens hi target c.arg _)
      split
      · exact Deepens.refl _
      · exact argValue_deepens hi _ c.arg _
    · exact absurd ‹_› hc
    · exact argValue_deepens hi target c.arg _

theorem restriction_deepens (h : levels ≤ levels') (x : Restriction) :
    r.Deepens (r.restriction levels x) (r.restriction levels' x) := by
  unfold restriction
  split
  · exact alone_deepens h x.comparable
  · rename_i c _
    refine (leftSide_deepens h x.comparable).bind fun left => ?_
    refine (Deepens.refl _).bind fun hooked => ?_
    have hright : r.Deepens (r.rightSide levels left.2 c) (r.rightSide levels' left.2 c) :=
      rightSide_deepens h left.2 c
    split
    · exact Deepens.refl _
    · exact hright.bind fun _ => Deepens.refl _

/-- What a restriction resolves to with some levels it resolves to with more. -/
theorem restriction_within (h : levels ≤ levels') (x : Restriction) :
    Resolve.Within (r.restriction levels x) (r.restriction levels' x) :=
  (restriction_deepens h x).within

end Resolver

end ListQuery.Filter
