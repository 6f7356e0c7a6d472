/-
The counter of levels is balanced. Whatever a routine that counts enters it leaves, so it gives its
value with the counter where it found it; and on the way it does what the routine of its name does
that is told how many levels are left (`Resolver.Counted.Counts`). So whole filters are resolved as
with levels handed down. Main statements: `Resolver.resolveTree_some`, `Resolver.freshValue_eq`.
-/
import ListQuery.Filter.Resolve.Resolver

namespace ListQuery.Filter

namespace Resolver

namespace Counted

variable {α β γ : Type} {r : Resolver} {depth levels fuel : Nat}

/-- In so many levels the step that counts does what the other does, and is in as many again. -/
def Counts (depth : Nat) (x : Counted α) (y : Resolve α) : Prop :=
  x depth = do return (← y, depth)

theorem counts_pure (a : α) : Counts depth (pure a) (pure a) := rfl

theorem counts_lift (y : Resolve α) : Counts depth (liftM y) y := rfl

theorem counts_fail (pos : Position) (cause : ValueCause) :
    Counts depth (fail pos cause : Counted α) (Resolve.fail pos cause) := rfl

theorem counts_throw (e : FilterError) : Counts depth (throw e : Counted α) (throw e) := rfl

theorem Counts.bind {x : Counted α} {y : Resolve α} {f : α → Counted β} {g : α → Resolve β}
    (hx : Counts depth x y) (hf : ∀ a, Counts depth (f a) (g a)) :
    Counts depth (x >>= f) (y >>= g) := by
  change (x depth >>= fun p => f p.1 p.2) = _
  rw [hx, bind_assoc, bind_assoc]
  exact bind_congr fun a => by rw [pure_bind]; exact hf a

theorem counts_ite {c : Prop} [Decidable c] {x x' : Counted α} {y y' : Resolve α}
    (hx : Counts depth x y) (hx' : Counts depth x' y') :
    Counts depth (if c then x else x') (if c then y else y') := by
  split
  · exact hx
  · exact hx'

theorem counts_mapM {f : γ → Counted α} {g : γ → Resolve α}
    (h : ∀ x, Counts depth (f x) (g x)) : ∀ xs : List γ, Counts depth (xs.mapM f) (xs.mapM g)
  | [] => counts_pure []
  | x :: xs => by
    rw [List.mapM_cons, List.mapM_cons]
    exact (h x).bind fun a => (counts_mapM h xs).bind fun as => counts_pure (a :: as)

/-- A level that is entered is left. -/
theorem Counts.level {x : Counted α} {y : Resolve α} (h : Counts (depth + 1) x y)
    (hdepth : depth < r.options.maxDepth) (pos : Position) :
    Counts depth (do enter r pos; let a ← x; leave; return a) y := by
  have henter : enter r pos depth = pure ((), depth + 1) := by
    change (if r.options.maxDepth < depth + 1 then (r.tooDeep pos : Counted Unit)
      else pure ()) (depth + 1) = _
    rw [if_neg (by omega)]
    rfl
  change (enter r pos depth >>= fun p => x p.2 >>= fun q => pure (q.1, q.2 - 1)) = _
  rw [henter, pure_bind, h, bind_assoc]
  rfl

/-- Where no level is left none is entered. -/
theorem counts_tooDeep (hdepth : r.options.maxDepth ≤ depth) (pos : Position) (x : Counted α) :
    Counts depth (do enter r pos; let a ← x; leave; return a) (r.tooDeep pos) := by
  have henter : enter r pos depth = r.tooDeep pos := by
    change (if r.options.maxDepth < depth + 1 then (r.tooDeep pos : Counted Unit)
      else pure ()) (depth + 1) = _
    rw [if_pos (by omega)]
    rfl
  change (enter r pos depth >>= fun p => x p.2 >>= fun q => pure (q.1, q.2 - 1)) = _
  rw [henter]
  rfl

theorem segment_counts {sel : Message → List Leaf → Counted (Selector × Field)}
    (hsel : ∀ m path, Counts depth (sel m path) (r.select levels m path)) (message : Message)
    (leaf : Leaf) (rest : List Leaf) :
    Counts depth (segment r sel message leaf rest)
      (r.select (levels + 1) message (leaf :: rest)) := by
  rw [Resolver.select]
  refine counts_ite (counts_fail _ _) ?_
  cases message.field? leaf.unquoted with
  | none => exact counts_fail _ _
  | some field =>
    cases rest with
    | nil => exact counts_pure _
    | cons next remaining =>
      refine counts_ite ?_ ?_
      · cases field.mapKey with
        | none => exact counts_throw _
        | some key =>
          cases field.mapValue with
          | none => exact counts_throw _
          | some value =>
            refine (counts_lift (mapKey key next)).bind fun k => ?_
            cases remaining with
            | nil => exact counts_pure _
            | cons first more =>
              dsimp only
              cases r.schema.messageOf? value with
              | none => exact counts_fail _ _
              | some inner => exact (hsel inner (first :: more)).bind fun _ => counts_pure _
      · cases r.schema.messageOf? field with
        | none => exact counts_fail _ _
        | some inner => exact (hsel inner (next :: remaining)).bind fun _ => counts_pure _

theorem select_counts (hdepth : depth + levels = r.options.maxDepth) (hfuel : levels < fuel)
    (message : Message) (path : List Leaf) :
    Counts depth (select r fuel message path) (r.select levels message path) := by
  -- each segment enters a level, and takes one of those that are left
  induction fuel generalizing depth levels message path with
  | zero => omega
  | succ fuel ih =>
    cases path with
    | nil =>
      rw [select, Resolver.select]
      exact counts_throw _
    | cons leaf rest =>
      cases levels with
      | zero =>
        rw [select, Resolver.select]
        exact counts_tooDeep (by omega) _ _
      | succ levels =>
        rw [select]
        exact (segment_counts (fun m path => ih (by omega) (by omega) m path) message leaf
          rest).level (by omega) _

/-- What is nested is resolved in so many levels as with so many left. -/
structure Below.Counts (r : Resolver) (depth levels : Nat) (below : Below) : Prop where
  path : ∀ path, Counted.Counts depth (below.path path) (r.selectRoot levels path)
  comparable : ∀ f c mode,
    Counted.Counts depth (below.comparable f c mode) ((r.innerAt levels).comparable f c mode)
  group : ∀ f e mode,
    Counted.Counts depth (below.group f e mode) ((r.innerAt levels).group f e mode)
  dynamic : ∀ c mode,
    Counted.Counts depth (below.dynamic c mode) ((r.innerAt levels).dynamic c mode)

variable {below : Below} (hb : below.Counts r depth levels)

include hb

section Members

variable (f : Field) (m : Member) (mode : ValueMode)

theorem indirect_counts :
    Counts depth (indirect below m mode) (r.indirect levels m mode) :=
  counts_ite ((hb.path m.path).bind fun _ => counts_pure _) (counts_fail _ _)

theorem indirectOnly_counts :
    Counts depth (indirectOnly below f m mode) (r.indirectOnly levels f m mode) :=
  counts_ite (indirect_counts hb m mode) (counts_lift _)

theorem numericValue_counts :
    Counts depth (numericValue below f m mode) (r.numericValue levels f m mode) := by
  refine counts_ite ((counts_lift _).bind fun _ => counts_ite ?_ ?_)
    (indirectOnly_counts hb f m mode)
  · exact (counts_lift _).bind fun _ => counts_pure _
  · exact (counts_lift _).bind fun _ => counts_pure _

theorem boolValue_counts :
    Counts depth (boolValue below f m mode) (r.boolValue levels f m mode) :=
  counts_ite ((counts_lift _).bind fun _ => counts_pure _) (indirectOnly_counts hb f m mode)

theorem stringValue_counts :
    Counts depth (stringValue r below m mode) (r.stringValue levels m mode) :=
  counts_ite (indirect_counts hb m mode) ((counts_lift _).bind fun _ => counts_pure _)

theorem bytesValue_counts :
    Counts depth (bytesValue r below f m mode) (r.bytesValue levels f m mode) := by
  refine counts_ite (indirect_counts hb m mode) ((counts_lift _).bind fun _ => ?_)
  cases m.value.bytes? with
  | none => exact counts_lift _
  | some bs => exact counts_pure _

theorem enumValue_counts :
    Counts depth (enumValue r below f m mode) (r.enumValue levels f m mode) := by
  refine counts_ite ?_ (counts_lift _)
  cases r.schema.enumValue? f m.value.unquoted with
  | none => exact counts_ite (indirect_counts hb m mode) (counts_fail _ _)
  | some n => exact (counts_lift _).bind fun _ => counts_pure _

theorem timestampValue_counts :
    Counts depth (timestampValue below f m mode) (r.timestampValue levels f m mode) := by
  refine counts_ite ((counts_lift _).bind fun _ => ?_) (indirectOnly_counts hb f m mode)
  cases Time.Timestamp.parse? m.value.unquoted with
  | none => exact counts_fail _ _
  | some t => exact counts_pure _

theorem durationValue_counts :
    Counts depth (durationValue below f m mode) (r.durationValue levels f m mode) := by
  refine counts_ite ((counts_lift _).bind fun _ => ?_) (indirectOnly_counts hb f m mode)
  cases Time.Duration.parse? m.value.unquoted with
  | none => exact counts_fail _ _
  | some d => exact counts_pure _

theorem memberValue_counts :
    Counts depth (memberValue r below f m mode) (r.memberValue levels f m mode) := by
  refine counts_ite (counts_lift _) (counts_ite (indirectOnly_counts hb f m mode) ?_)
  cases r.schema.wellKnownOf? f with
  | some w =>
    cases w with
    | timestamp => exact timestampValue_counts hb f m mode
    | duration => exact durationValue_counts hb f m mode
    | struct | value => exact indirectOnly_counts hb f m mode
  | none =>
    dsimp only
    cases f.kind with
    | bool => exact boolValue_counts hb f m mode
    | string => exact stringValue_counts hb m mode
    | bytes => exact bytesValue_counts hb f m mode
    | enum => exact enumValue_counts hb f m mode
    | message | group => exact indirectOnly_counts hb f m mode
    | _ => exact numericValue_counts hb f m mode

end Members

theorem argValue_counts (f : Field) (arg : Arg) (mode : ValueMode) :
    Counts depth (argValue below f arg mode)
      (Resolver.argValue (r.innerAt levels) f arg mode) := by
  cases arg with
  | composite c => exact hb.group f c.expression mode
  | comparable c => exact hb.comparable f c mode

theorem callArgs_counts (s : Signature) (mode : ValueMode) (index : Nat) (args : List Arg) :
    Counts depth (callArgs below s mode index args)
      (Resolver.callArgs (r.innerAt levels) s mode index args) := by
  induction args generalizing index with
  | nil => exact counts_pure []
  | cons arg args ih =>
    rw [callArgs, Resolver.callArgs]
    cases s.parameter? index with
    | none => exact counts_throw _
    | some param =>
      exact (argValue_counts hb param arg _).bind fun _ => (ih _).bind fun _ => counts_pure _

theorem plainCall_counts (c : Call) (name : String) (target : Option Field) (mode : ValueMode) :
    Counts depth (plainCall r below c name target mode)
      (r.plainCall (r.innerAt levels) c name target mode) := by
  unfold plainCall Resolver.plainCall
  cases r.options.function? name with
  | none => exact counts_fail _ _
  | some s =>
    refine counts_ite (counts_fail _ _) ((callArgs_counts hb s mode 0 c.args).bind fun es => ?_)
    cases target with
    | none => exact counts_pure _
    | some target =>
      dsimp only
      cases s.result with
      | none => exact counts_pure _
      | some result => exact counts_ite (counts_pure _) (counts_fail _ _)

theorem call_counts (c : Call) (target : Option Field) (mode : ValueMode) :
    Counts depth (call r below c target mode) (r.call (r.innerAt levels) c target mode) := by
  unfold call Resolver.call
  dsimp only
  cases lookup? (joinPath .unquoted c.name) r.options.callHooks with
  | none => exact plainCall_counts hb c _ target mode
  | some hook =>
    refine (counts_lift _).bind fun taken => ?_
    cases taken with
    | none => exact plainCall_counts hb c _ target mode
    | some e => exact counts_pure e

theorem callValue_counts (c : Call) (target : Option Field) (mode : ValueMode) :
    Counts depth (callValue r below c target mode)
      (r.callValue (r.innerAt levels) c target mode) :=
  (call_counts hb c target mode).bind fun e => counts_ite (counts_fail _ _) (counts_pure e)

theorem dynamicEntries_counts (mode : ValueMode) (seen : List String)
    (entries : List StructEntry) :
    Counts depth (dynamicEntries below mode seen entries)
      (Resolver.dynamicEntries (r.innerAt levels) mode seen entries) := by
  induction entries generalizing seen with
  | nil => exact counts_pure []
  | cons entry entries ih =>
    rw [dynamicEntries, Resolver.dynamicEntries]
    exact counts_ite (counts_fail _ _)
      ((hb.dynamic entry.value mode).bind fun _ => (ih _).bind fun _ => counts_pure _)

theorem dynamicMap_counts (s : StructLiteral) (mode : ValueMode) :
    Counts depth (dynamicMap below s mode) (Resolver.dynamicMap (r.innerAt levels) s mode) :=
  (counts_lift _).bind fun _ =>
    (dynamicEntries_counts hb mode [] s.entries).bind fun _ => counts_pure _

theorem instantEntries_counts (w : WellKnown) (message : Message) (seconds nanos : Option Int)
    (entries : List StructEntry) :
    Counts depth (instantEntries below w message seconds nanos entries)
      (Resolver.instantEntries (r.innerAt levels) w message seconds nanos entries) := by
  induction entries generalizing seconds nanos with
  | nil => exact counts_pure _
  | cons entry entries ih =>
    rw [instantEntries, Resolver.instantEntries]
    refine counts_ite (counts_fail _ _) (counts_ite (counts_fail _ _) ?_)
    cases message.field? entry.name.unquoted with
    | none => exact counts_throw _
    | some sub =>
      refine (hb.comparable sub entry.value .direct).bind fun e => ?_
      cases e with
      | value v =>
        cases v with
        | int64 n => exact counts_ite (ih _ _) (ih _ _)
        | _ => exact counts_fail _ _
      | _ => exact counts_fail _ _

theorem instant_counts (f : Field) (s : StructLiteral) (w : WellKnown) :
    Counts depth (instant r below f s w) (r.instant (r.innerAt levels) f s w) := by
  refine (counts_lift _).bind fun _ => ?_
  cases r.schema.messageOf? f with
  | none => exact counts_throw _
  | some message => exact instantEntries_counts hb w message none none s.entries

theorem timestampStruct_counts (f : Field) (s : StructLiteral) :
    Counts depth (timestampStruct r below f s) (r.timestampStruct (r.innerAt levels) f s) := by
  refine (instant_counts hb f s .timestamp).bind fun x => ?_
  dsimp only
  cases (if x.2 < 0 then none else Time.Timestamp.ofUnix? x.1 x.2.toNat) with
  | none => exact counts_fail _ _
  | some t => exact counts_pure _

theorem durationStruct_counts (f : Field) (s : StructLiteral) :
    Counts depth (durationStruct r below f s) (r.durationStruct (r.innerAt levels) f s) := by
  refine (instant_counts hb f s .duration).bind fun x => ?_
  dsimp only
  cases Time.Duration.ofSum? x.1 x.2 with
  | none => exact counts_fail _ _
  | some d => exact counts_pure _

theorem messageEntries_counts (message : Message) (mode : ValueMode) (seen : List String)
    (entries : List StructEntry) :
    Counts depth (messageEntries below message mode seen entries)
      (Resolver.messageEntries (r.innerAt levels) message mode seen entries) := by
  induction entries generalizing seen with
  | nil => exact counts_pure []
  | cons entry entries ih =>
    rw [messageEntries, Resolver.messageEntries]
    cases message.field? entry.name.unquoted with
    | none => exact counts_fail _ _
    | some sub =>
      exact counts_ite (counts_fail _ _)
        ((hb.comparable sub entry.value _).bind fun _ => (ih _).bind fun _ => counts_pure _)

theorem messageStruct_counts (f : Field) (s : StructLiteral) (mode : ValueMode) :
    Counts depth (messageStruct r below f s mode)
      (r.messageStruct (r.innerAt levels) f s mode) := by
  unfold messageStruct Resolver.messageStruct
  cases r.schema.messageOf? f with
  | none => exact counts_throw _
  | some message =>
    exact (counts_lift _).bind fun _ =>
      (messageEntries_counts hb message mode [] s.entries).bind fun _ => counts_pure _

theorem mapEntries_counts (key value : Field) (mode : ValueMode) (seen : List MapKey)
    (entries : List StructEntry) :
    Counts depth (mapEntries below key value mode seen entries)
      (Resolver.mapEntries (r.innerAt levels) key value mode seen entries) := by
  induction entries generalizing seen with
  | nil => exact counts_pure []
  | cons entry entries ih =>
    rw [mapEntries, Resolver.mapEntries]
    exact (counts_lift _).bind fun _ => counts_ite (counts_fail _ _)
      ((hb.comparable value entry.value mode).bind fun _ => (ih _).bind fun _ => counts_pure _)

theorem mapStruct_counts (f : Field) (s : StructLiteral) (mode : ValueMode) :
    Counts depth (mapStruct below f s mode)
      (Resolver.mapStruct (r.innerAt levels) f s mode) := by
  refine counts_ite (counts_fail _ _) ?_
  cases f.mapKey with
  | none => exact counts_throw _
  | some key =>
    cases f.mapValue with
    | none => exact counts_throw _
    | some value =>
      exact (mapEntries_counts hb key value mode [] s.entries).bind fun _ => counts_pure _

theorem structValue_counts (f : Field) (s : StructLiteral) (mode : ValueMode) :
    Counts depth (structValue r below f s mode)
      (r.structValue (r.innerAt levels) f s mode) := by
  refine counts_ite (mapStruct_counts hb f s mode) ?_
  cases r.schema.wellKnownOf? f with
  | none => exact counts_ite (messageStruct_counts hb f s mode) (counts_fail _ _)
  | some w =>
    cases w with
    | timestamp => exact timestampStruct_counts hb f s
    | duration => exact durationStruct_counts hb f s
    | struct => exact dynamicMap_counts hb s mode
    | value => exact hb.dynamic (.struct s) mode

/-! ## Values on every level -/

theorem comparableBody_counts (f : Field) (c : Comparable) (mode : ValueMode) :
    Counts depth (comparableBody r below f c mode)
      (r.comparableBody levels (r.innerAt levels) f c mode) := by
  cases c with
  | array a =>
    exact counts_ite (counts_fail _ _)
      ((counts_mapM (fun e => hb.comparable f e mode) a.elements).bind fun _ => counts_pure _)
  | call c => exact callValue_counts hb c (some f) mode
  | struct s => exact structValue_counts hb f s mode
  | member m => exact counts_ite (hb.dynamic _ mode) (memberValue_counts hb f m mode)

omit hb in
/-- A level of logic: the same operators around operands that count. -/
theorem counts_logic {f : Term → Counted Expr} {g : Term → Resolve Expr}
    (h : ∀ t, Counts depth (f t) (g t)) (e : Expression) :
    Counts depth
      (do
        let sequences ← e.sequences.mapM fun s => do
          let factors ← s.factors.mapM fun x => do
            let terms ← x.terms.mapM f
            return Expr.disjunction terms
          return Expr.conjunction factors
        return Expr.conjunction sequences)
      (do
        let sequences ← e.sequences.mapM fun s => do
          let factors ← s.factors.mapM fun x => do
            let terms ← x.terms.mapM g
            return Expr.disjunction terms
          return Expr.conjunction factors
        return Expr.conjunction sequences) := by
  refine (counts_mapM (fun s => ?_) e.sequences).bind fun _ => counts_pure _
  refine (counts_mapM (fun x => ?_) s.factors).bind fun _ => counts_pure _
  exact (counts_mapM h x.terms).bind fun _ => counts_pure _

theorem groupBody_counts (f : Field) (e : Expression) (mode : ValueMode) :
    Counts depth (groupBody below f e mode)
      (Resolver.groupBody (r.innerAt levels) f e mode) := by
  refine counts_logic (fun t => ?_) e
  dsimp only
  cases t.simple with
  | composite c => exact (hb.group f c.expression mode).bind fun _ => counts_pure _
  | restriction x =>
    dsimp only
    cases x.comparison with
    | some c => exact (counts_fail _ _).bind fun _ => counts_pure _
    | none => exact (hb.comparable f x.comparable mode).bind fun _ => counts_pure _

theorem dynamicBody_counts (c : Comparable) (mode : ValueMode) :
    Counts depth (dynamicBody r below c mode)
      (r.dynamicBody (r.innerAt levels) c mode) := by
  cases c with
  | member m => exact (counts_lift _).bind fun _ => counts_pure _
  | struct s => exact dynamicMap_counts hb s mode
  | array a =>
    exact (counts_mapM (fun e => hb.dynamic e mode) a.elements).bind fun _ => counts_pure _
  | call c => exact callValue_counts hb c none mode

omit hb in
/-- By induction on the fuel, of which there is more than there are levels left. -/
theorem nested_counts (hdepth : depth + levels = r.options.maxDepth) (hfuel : levels < fuel) :
    (nested r fuel).Counts r depth levels := by
  induction fuel generalizing depth levels with
  | zero => omega
  | succ fuel ih =>
    have hpath (path : List Leaf) := select_counts hdepth hfuel r.root path
    cases levels with
    | zero =>
      refine ⟨hpath, fun f c mode => ?_, fun f e mode => ?_, fun c mode => ?_⟩
      · simp only [nested, innerAt, comparableValue, Resolver.comparableValue]
        exact counts_tooDeep (by omega) _ _
      · simp only [nested, innerAt, groupValue, Resolver.groupValue]
        exact counts_tooDeep (by omega) _ _
      · simp only [nested, innerAt, dynamicValue, Resolver.dynamicValue]
        exact counts_tooDeep (by omega) _ _
    | succ levels =>
      have hb : (nested r fuel).Counts r (depth + 1) levels := ih (by omega) (by omega)
      refine ⟨hpath, fun f c mode => ?_, fun f e mode => ?_, fun c mode => ?_⟩
      · simp only [nested, innerAt, comparableValue, Resolver.comparableValue]
        exact (comparableBody_counts hb f c mode).level (by omega) _
      · simp only [nested, innerAt, groupValue, Resolver.groupValue]
        exact (groupBody_counts hb f e mode).level (by omega) _
      · simp only [nested, innerAt, dynamicValue, Resolver.dynamicValue]
        exact (dynamicBody_counts hb c mode).level (by omega) _

theorem alone_counts (c : Comparable) :
    Counts depth (alone r below c) (r.alone levels c) := by
  cases c with
  | member m =>
    exact counts_ite ((hb.path m.path).bind fun _ => counts_pure _) (counts_pure _)
  | call c => exact call_counts hb c none _
  | struct s => exact counts_fail _ _
  | array a => exact counts_fail _ _

theorem leftSide_counts (c : Comparable) :
    Counts depth (leftSide r below c) (r.leftSide levels c) := by
  cases c with
  | member m => exact (hb.path m.path).bind fun _ => counts_pure _
  | call c =>
    unfold leftSide Resolver.leftSide
    dsimp only
    cases (r.options.function? (joinPath .unquoted c.name)).bind Signature.result with
    | none => exact counts_fail _ _
    | some result => exact (call_counts hb c none _).bind fun _ => counts_pure _
  | struct s => exact counts_fail _ _
  | array a => exact counts_fail _ _

theorem namesRepeated_counts (arg : Arg) :
    Counts depth (namesRepeated below arg) (r.namesRepeated levels arg) := by
  unfold namesRepeated Resolver.namesRepeated
  cases arg with
  | composite c => exact counts_pure _
  | comparable c =>
    cases c with
    | member m => exact (hb.path m.path).bind fun _ => counts_pure _
    | call | struct | array => exact counts_pure _

theorem rightSide_counts (target : Field) (c : Comparison) :
    Counts depth (rightSide r below target c) (r.rightSide levels target c) := by
  have harg (f : Field) := argValue_counts hb f c.arg ⟨r.options.allowIndirect, false⟩
  obtain ⟨comparator, pos, arg⟩ := c
  cases comparator with
  | has =>
    refine counts_ite ?_ (harg target)
    cases target.mapKey with
    | none => exact counts_throw _
    | some key => exact harg key
  | isIn =>
    refine (harg target).bind fun right => ?_
    have hcheck (accepted : Bool) : Counts depth
        (if accepted = true then pure right else fail pos .needsArray : Counted Expr)
        (if accepted = true then pure right else Resolve.fail pos .needsArray) :=
      counts_ite (counts_pure right) (counts_fail _ _)
    cases right with
    | field x => exact (namesRepeated_counts hb arg).bind hcheck
    | array | call => exact (counts_pure true).bind hcheck
    | compare | and | or | not | value | map => exact (counts_pure false).bind hcheck
  | equals | notEquals | lessThan | lessEquals | greaterThan | greaterEquals => exact harg target

theorem restriction_counts (x : Restriction) :
    Counts depth (restriction r below x) (r.restriction levels x) := by
  unfold restriction Resolver.restriction
  cases x.comparison with
  | none => exact alone_counts hb x.comparable
  | some c =>
    refine (leftSide_counts hb x.comparable).bind fun left => (counts_lift _).bind fun taken => ?_
    cases taken with
    | some e => exact counts_pure e
    | none => exact (rightSide_counts hb left.2 c).bind fun _ => counts_pure _

theorem expressionBody_counts {inner : Expression → Counted Expr}
    {inner' : Expression → Resolve Expr} (hinner : ∀ e, Counts depth (inner e) (inner' e))
    (e : Expression) :
    Counts depth (expressionBody r below inner e) (r.expressionBody levels inner' e) := by
  refine counts_logic (fun t => ?_) e
  dsimp only
  cases t.simple with
  | composite c => exact (hinner c.expression).bind fun _ => counts_pure _
  | restriction x => exact (restriction_counts hb x).bind fun _ => counts_pure _

omit hb in
/-- An expression is resolved as with the levels that are left. -/
theorem expression_counts (hdepth : depth + levels = r.options.maxDepth) (hfuel : levels < fuel)
    (e : Expression) : Counts depth (expression r fuel e) (r.expression levels e) := by
  induction fuel generalizing depth levels e with
  | zero => omega
  | succ fuel ih =>
    cases levels with
    | zero =>
      simp only [expression, Resolver.expression]
      exact counts_tooDeep (by omega) _ _
    | succ levels =>
      simp only [expression, Resolver.expression]
      exact (expressionBody_counts (nested_counts (by omega) (by omega))
        (fun e => ih (by omega) (by omega) e) e).level (by omega) _

omit hb in
/-- From the first level on. -/
theorem Counts.run' {x : Counted α} {y : Resolve α} (h : Counts 0 x y) : x.run' 0 = y := by
  change Prod.fst <$> x 0 = y
  rw [h, map_bind]
  exact bind_pure y

end Counted

/-- A tree is resolved as with all levels of nesting left. -/
theorem resolveTree_some (r : Resolver) (e : Expression) :
    r.resolveTree (some e) = do
      let expr ← r.expression r.options.maxDepth e
      return ⟨some expr, expr.complexity⟩ := by
  rw [resolveTree,
    (Counted.expression_counts (Nat.zero_add _) (Nat.lt_succ_self r.options.maxDepth) e).run']

/-- So is an argument. -/
theorem freshValue_eq (r : Resolver) (f : Field) (arg : Arg) (mode : ValueMode) :
    r.freshValue f arg mode = argValue (r.innerAt r.options.maxDepth) f arg mode :=
  (Counted.argValue_counts (Counted.nested_counts (Nat.zero_add _)
    (Nat.lt_succ_self r.options.maxDepth)) f arg mode).run'

end Resolver

end ListQuery.Filter
