/-
What resolution takes its levels of nesting for. An expression, a group or a literal as a value, and
a segment of a path are tasks that take a level each and ask for others one level down
(`Resolver.asked`). A task that can be done at all can be done with some levels exactly when all
that it asks for can be done with one less (`Resolver.done_succ_iff`). So the least number of levels
is the length of the longest chain of tasks, each asked for by the one before, and it does not count
how many are asked for side by side. Main statement: `Resolver.isGreatest_chain`.
-/
import Mathlib.Order.Bounds.Basic
import Mathlib.Order.Nat
import ListQuery.Proofs.Resolve.Levels
import ListQuery.Proofs.Resolve.Mirror
import ListQuery.Proofs.Resolve.Unplaced
import ListQuery.Proofs.Resolve.Walks
import ListQuery.Proofs.Tree.Operands

namespace ListQuery.Filter

open Resolve

namespace Resolver

/-- What takes a level of nesting. -/
inductive Task where
  | expression (e : Expression)
  | group (f : Field) (e : Expression) (mode : ValueMode)
  | value (f : Field) (c : Comparable) (mode : ValueMode)
  | dynamic (c : Comparable) (mode : ValueMode)
  | path (message : Message) (path : List Leaf)

/-- An argument as a value of a field. -/
def argTask (f : Field) (mode : ValueMode) : Arg → Task
  | .composite c => .group f c.expression mode
  | .comparable c => .value f c mode

/-- The arguments of a call as values of its parameters, the first of them at place `index`. -/
def argTasks (s : Signature) (mode : ValueMode) : Nat → List Arg → List Task
  | _, [] => []
  | index, arg :: args =>
    ((s.parameter? index).map fun f => argTask f mode arg).toList ++
      argTasks s mode (index + 1) args

/-- Entries of a literal as fields of a message. -/
def fieldTasks (message : Message) (mode : ValueMode) (entries : List StructEntry) : List Task :=
  entries.flatMap fun e =>
    ((message.field? e.name.unquoted).map fun f => .value f e.value mode).toList

/-- The rest of a path behind its first segment, or behind the key of a map. -/
def restTasks (s : Schema) (message : Message) : List Leaf → List Task
  | leaf :: next :: rest =>
    match message.field? leaf.unquoted with
    | none => []
    | some f =>
      if f.isMap then
        if rest.isEmpty then []
        else ((f.mapValue.bind s.messageOf?).map fun inner => .path inner rest).toList
      else ((s.messageOf? f).map fun inner => .path inner (next :: rest)).toList
  | _ => []

section

variable (r : Resolver)

def callTasks (c : Call) (mode : ValueMode) : List Task :=
  match r.options.function? (joinPath .unquoted c.name) with
  | none => []
  | some s => argTasks s mode.required 0 c.args

def structTasks (f : Field) (s : StructLiteral) (mode : ValueMode) : List Task :=
  if f.isMap then
    f.mapValue.toList.flatMap fun value => s.entries.map fun e => .value value e.value mode
  else
    match r.schema.wellKnownOf? f with
    | some .struct => s.entries.map fun e => .dynamic e.value mode
    | some .value => [.dynamic (.struct s) mode]
    | some _ => (r.schema.messageOf? f).toList.flatMap fun m => fieldTasks m .direct s.entries
    | none => (r.schema.messageOf? f).toList.flatMap fun m => fieldTasks m mode.required s.entries

/-- Whether a bare word in place of a value is the name of a field and of nothing else. -/
def standsForField (f : Field) (m : Member) (mode : ValueMode) : Bool :=
  r.namesField m mode && (f.isMap || (r.schema.enumValue? f m.value.unquoted).isNone)

/-- A member as a value of a field. -/
def wordTasks (f : Field) (m : Member) (mode : ValueMode) : List Task :=
  if r.standsForField f m mode then [.path r.root m.path] else []

/-- A literal as a value of a field. -/
def valueTasks (f : Field) (c : Comparable) (mode : ValueMode) : List Task :=
  match c with
  | .array a => a.elements.map fun e => .value f e mode
  | .call c => r.callTasks c mode
  | .struct s => r.structTasks f s mode
  | .member m =>
    if r.schema.wellKnownOf? f = some .value then [.dynamic (.member m) mode]
    else r.wordTasks f m mode

/-- A literal as any value. -/
def dynamicTasks (c : Comparable) (mode : ValueMode) : List Task :=
  match c with
  | .array a => a.elements.map fun e => .dynamic e mode
  | .call c => r.callTasks c mode
  | .struct s => s.entries.map fun e => .dynamic e.value mode
  | .member _ => []

/-- A comparable alone. -/
def aloneTasks : Comparable → List Task
  | .member m => if r.namesField m ⟨true, false⟩ then [.path r.root m.path] else []
  | .call c => r.callTasks c ⟨true, false⟩
  | _ => []

/-- What is compared. -/
def leftTasks : Comparable → List Task
  | .member m => [.path r.root m.path]
  | .call c => r.callTasks c ⟨true, false⟩
  | _ => []

/-- The field whose values something is compared with. A path takes no more levels than it has
segments. -/
def comparedField? : Comparable → Option Field
  | .member m => (r.selectRoot m.path.length m.path).run.1.toOption.map Prod.snd
  | .call c => (r.options.function? (joinPath .unquoted c.name)).bind Signature.result
  | _ => none

/-- An argument on the right of `IN` that names a field. -/
def listedTasks : Arg → List Task
  | .comparable (.member m) => [.path r.root m.path]
  | _ => []

/-- The right side of a comparison with values of a field. On the right of `IN` the path of a field
is followed once more. -/
def rightTasks (target : Field) (c : Comparison) : List Task :=
  let mode : ValueMode := ⟨r.options.allowIndirect, false⟩
  match c.comparator with
  | .has =>
    if target.isMap then target.mapKey.toList.map fun key => argTask key mode c.arg
    else [argTask target mode c.arg]
  | .isIn => argTask target mode c.arg :: r.listedTasks c.arg
  | _ => [argTask target mode c.arg]

def restrictionTasks (x : Restriction) : List Task :=
  match x.comparison with
  | none => r.aloneTasks x.comparable
  | some c =>
    r.leftTasks x.comparable ++
      (r.comparedField? x.comparable).toList.flatMap fun target => r.rightTasks target c

/-- What a task asks for one level down. -/
def asked : Task → List Task
  | .expression e => e.simples.flatMap fun
    | .composite c => [.expression c.expression]
    | .restriction x => r.restrictionTasks x
  | .group f e mode => e.simples.map fun
    | .composite c => .group f c.expression mode
    | .restriction x => .value f x.comparable mode
  | .value f c mode => r.valueTasks f c mode
  | .dynamic c mode => r.dynamicTasks c mode
  | .path message path => restTasks r.schema message path

/-- A chain of so many tasks, each asked for by the one before. -/
inductive Chain : Task → Nat → Prop where
  | one (t : Task) : Chain t 1
  | more {t u : Task} {n : Nat} (asks : u ∈ r.asked t) (chain : Chain u n) : Chain t (n + 1)

end

end Resolver

namespace Walk

theorem exists_names {s : Schema} {m : Message} {leaf : Leaf} {rest : List Leaf}
    {places : List Place} (h : Walk s m (leaf :: rest) places) : ∃ f, leaf.Names m f := by
  cases h with
  | last name => exact ⟨_, name⟩
  | into name => exact ⟨_, name⟩
  | key name => exact ⟨_, name⟩
  | entry name => exact ⟨_, name⟩

end Walk

/-- A member is no array and no call, whatever it resolves to. -/
def OneValue : Comparable → Expr → Prop
  | .member _, .array _ => False
  | .member _, .call .. => False
  | _, _ => True

theorem oneValue_mirror (r : Resolver) : Mirror OneValue (fun _ _ => True) r where
  scalar c v h := by cases c <;> trivial
  field m x f places hwalk hfollows := trivial
  call c s es hs hes := trivial
  array a es hes := trivial
  message s name fields hes hnodup := trivial
  map s key pairs hes hnodup := trivial
  group x e h := trivial

/-! ## Runs that succeed -/

namespace Resolve

variable {α β γ : Type} {s : List (Report ValueCause)}

/-- The step gives a value. -/
def Succeeds (x : Resolve α) (s : List (Report ValueCause)) : Prop := ∃ a s', x s = .ok a s'

theorem Agree.succeeds_iff {x : Resolve α} (h : Agree x x) (t : List (Report ValueCause)) :
    Succeeds x s ↔ Succeeds x t := exists_congr (h s t)

end Resolve

namespace Resolver

variable {r : Resolver} {levels levels' : Nat}

/-- A task can be done with so many levels left. -/
def Done (r : Resolver) (levels : Nat) : Task → Prop
  | .expression e => Succeeds (r.expression levels e) []
  | .group f e mode => Succeeds (r.groupValue levels f e mode) []
  | .value f c mode => Succeeds (r.comparableValue levels f c mode) []
  | .dynamic c mode => Succeeds (r.dynamicValue levels c mode) []
  | .path message path => Succeeds (r.select levels message path) []

/-- Where the first run has given a value, the second one gives it too if the tasks can be done, and
gives nothing otherwise. -/
def Asks (r : Resolver) (levels : Nat) {α : Type} (x y : Resolve α) (ts : List Task) : Prop :=
  ∀ s a s', x s = .ok a s' → ∀ b t, y s = .ok b t ↔ b = a ∧ t = s' ∧ ∀ u ∈ ts, r.Done levels u

section Asks

variable {α β γ : Type} {x y : Resolve α} {f g : α → Resolve β} {ts us : List Task}

theorem asks_self (x : Resolve α) : r.Asks levels x x [] := by
  intro s a s' hx b t
  rw [hx, EStateM.Result.ok.injEq]
  simp [eq_comm]

theorem asks_fail (pos : Position) (cause : ValueCause) :
    r.Asks levels (fail pos cause) y ts := fun _ _ _ h => nomatch h

theorem asks_throw (e : FilterError) : r.Asks levels (throw e) y ts := fun _ _ _ h => nomatch h

theorem Asks.bind (hx : r.Asks levels x y ts)
    (hf : ∀ a, (∃ s s', x s = .ok a s') → r.Asks levels (f a) (g a) us) :
    r.Asks levels (x >>= f) (y >>= g) (ts ++ us) := by
  intro s b s' h b' t
  obtain ⟨a, s₁, ha, hb⟩ := bind_ok.1 h
  have hsecond := hf a ⟨s, s₁, ha⟩ s₁ b s' hb b' t
  rw [bind_ok, List.forall_mem_append]
  constructor
  · rintro ⟨a', s₂, ha', hb'⟩
    obtain ⟨rfl, rfl, hts⟩ := (hx s a s₁ ha a' s₂).1 ha'
    obtain ⟨rfl, rfl, hus⟩ := hsecond.1 hb'
    exact ⟨rfl, rfl, hts, hus⟩
  · rintro ⟨rfl, rfl, hts, hus⟩
    exact ⟨a, s₁, (hx s a s₁ ha a s₁).2 ⟨rfl, rfl, hts⟩, hsecond.2 ⟨rfl, rfl, hus⟩⟩

/-- A step whose value is only passed on. -/
theorem Asks.map (h : r.Asks levels x y ts) (f : α → Resolve β) :
    r.Asks levels (x >>= f) (y >>= f) ts := by
  have hbind := h.bind fun a _ => @asks_self r levels _ (f a)
  rwa [List.append_nil] at hbind

/-- Behind a step without tasks. -/
theorem asks_after (x : Resolve α) (h : ∀ a, r.Asks levels (f a) (g a) ts) :
    r.Asks levels (x >>= f) (x >>= g) ts :=
  (@asks_self r levels _ x).bind fun a _ => h a

theorem asks_ite {c : Prop} [Decidable c] {x' y' : Resolve α} (h : c → r.Asks levels x y ts)
    (h' : ¬c → r.Asks levels x' y' ts) :
    r.Asks levels (if c then x else x') (if c then y else y') ts := by
  split
  · next hc => exact h hc
  · next hc => exact h' hc

theorem asks_mapM {f g : γ → Resolve α} {ts : γ → List Task} {xs : List γ}
    (h : ∀ x ∈ xs, r.Asks levels (f x) (g x) (ts x)) :
    r.Asks levels (xs.mapM f) (xs.mapM g) (xs.flatMap ts) := by
  induction xs with
  | nil => exact asks_self _
  | cons x xs ih =>
    rw [List.mapM_cons, List.mapM_cons, List.flatMap_cons]
    refine (h x List.mem_cons_self).bind fun a _ => ?_
    exact (ih fun y hy => h y (List.mem_cons_of_mem x hy)).map _

/-- A task at two numbers of levels, one of which is the greater one. -/
theorem asks_task {t : Task} (hsame : r.Deepens x y ∨ r.Deepens y x) (hagree : Agree y y)
    (hdone : r.Done levels t ↔ Succeeds y []) : r.Asks levels x y [t] := by
  intro s a s' hx b s₁
  rw [List.forall_mem_singleton, hdone, hagree.succeeds_iff s]
  have heq {b : α} {s₁ : List (Report ValueCause)} (hy : y s = .ok b s₁) : b = a ∧ s₁ = s' := by
    rcases hsame with h | h
    · cases (h.within s a s' hx).symm.trans hy
      exact ⟨rfl, rfl⟩
    · cases hx.symm.trans (h.within s b s₁ hy)
      exact ⟨rfl, rfl⟩
  constructor
  · intro hy
    exact ⟨(heq hy).1, (heq hy).2, b, s₁, hy⟩
  · rintro ⟨rfl, rfl, b, s₁, hy⟩
    obtain ⟨rfl, rfl⟩ := heq hy
    exact hy

end Asks

section Deepens

variable (hhooks : r.options.HookFree) {depth : Nat}

include hhooks

theorem restriction_deepens_withDepth (h : levels ≤ levels') (x : Restriction) :
    r.Deepens (r.restriction levels x) ((r.withDepth depth).restriction levels' x) := by
  obtain ⟨span, comparable, comparison⟩ := x
  cases comparison with
  | none => exact alone_deepens h comparable
  | some c =>
    have hhooks' : (r.withDepth depth).options.HookFree := ⟨hhooks.fieldHooks, hhooks.callHooks⟩
    rw [restriction_comparison hhooks, restriction_comparison hhooks']
    exact (leftSide_deepens h comparable).bind fun x =>
      (rightSide_deepens h x.2 c).bind fun _ => Deepens.refl _

theorem expression_deepens (h : levels ≤ levels') (e : Expression) :
    r.Deepens (r.expression levels e) ((r.withDepth depth).expression levels' e) := by
  induction levels generalizing levels' e with
  | zero =>
    rw [expression]
    exact deepens_tooDeep _ _
  | succ levels ih =>
    obtain ⟨levels', rfl⟩ : ∃ k, levels' = k + 1 := ⟨levels' - 1, by omega⟩
    have hle : levels ≤ levels' := by omega
    rw [expression, expression]
    refine deepens_logic (fun t => ?_) e
    dsimp only
    split
    · exact (ih hle _).bind fun _ => Deepens.refl _
    · exact (restriction_deepens_withDepth hhooks hle _).bind fun _ => Deepens.refl _

end Deepens

/-! ## What each routine asks for -/

section Routines

variable (hhooks : r.options.HookFree) {enough : Nat}

/-- With two numbers of levels, the run with fewer goes on as the one with more. -/
theorem innerAt_deepens_or (enough levels : Nat) :
    (r.innerAt enough).Deepen r (r.innerAt levels) ∨
      (r.innerAt levels).Deepen r (r.innerAt enough) :=
  (le_total enough levels).imp
    (@innerAt_deepens r r.options.allowIndirect r.options.maxDepth enough levels)
    (@innerAt_deepens r r.options.allowIndirect r.options.maxDepth levels enough)

theorem asks_path (message : Message) (path : List Leaf) :
    r.Asks levels (r.select enough message path) (r.select levels message path)
      [.path message path] := by
  refine asks_task ?_ (@select_moved .nowhere r r.options.maxDepth levels message path).agree.left
    Iff.rfl
  exact (le_total enough levels).imp
    (fun h => @select_deepens r r.options.allowIndirect r.options.maxDepth _ _ h message path)
    (fun h => @select_deepens r r.options.allowIndirect r.options.maxDepth _ _ h message path)

theorem asks_indirect (m : Member) (mode : ValueMode) :
    r.Asks levels (r.indirect enough m mode) (r.indirect levels m mode)
      [.path r.root m.path] :=
  asks_ite (fun _ => (asks_path r.root m.path).map _) fun _ => asks_fail _ _

/-- A path that binds with some levels binds to the same with one for each segment. -/
theorem selectRoot_length {path : List Leaf} {x : Selector × Field}
    {s s' : List (Report ValueCause)} (h : r.selectRoot enough path s = .ok x s') :
    (r.selectRoot path.length path).run.1 = .ok x := by
  obtain ⟨⟨places, hwalk, -, -⟩, -⟩ := (select_walk enough r.root path).of_ok h
  have hcount : Place.fields places ≤ path.length := by
    rw [hwalk.leadsTo.length_eq]
    exact List.countP_le_length
  obtain ⟨y, hy⟩ := exists_select hwalk hcount []
  have hagree := (@select_moved .nowhere r r.options.maxDepth enough r.root path).agree.left
  obtain ⟨s₁, h⟩ := (hagree s [] x).1 ⟨s', h⟩
  obtain ⟨rfl, -⟩ := (asks_path r.root path [] x s₁ h y []).1 hy
  exact run_eq_ok.2 ⟨[], hy⟩

/-- What is compared has the values of the field that it is said to have. -/
theorem comparedField?_eq {c : Comparable} {x : Expr × Field} {s s' : List (Report ValueCause)}
    (h : r.leftSide enough c s = .ok x s') : r.comparedField? c = some x.2 := by
  cases c with
  | member m =>
    obtain ⟨y, s₁, hy, h⟩ := bind_ok.1 h
    cases h
    rw [comparedField?, selectRoot_length hy]
    rfl
  | call c =>
    unfold leftSide at h
    dsimp only at h
    cases hresult : (r.options.function? (joinPath .unquoted c.name)).bind Signature.result with
    | none =>
      rw [hresult] at h
      cases h
    | some result =>
      rw [hresult] at h
      obtain ⟨v, s₁, -, h⟩ := bind_ok.1 h
      cases h
      exact hresult
  | struct s => cases h
  | array a => cases h

theorem asks_namesRepeated (arg : Arg) :
    r.Asks levels (r.namesRepeated enough arg) (r.namesRepeated levels arg)
      (r.listedTasks arg) := by
  unfold namesRepeated
  split
  · exact (asks_path r.root _).map _
  · next hother =>
    have hnone : r.listedTasks arg = [] := by
      unfold listedTasks
      split
      · exact absurd rfl (hother _)
      · rfl
    rw [hnone]
    exact asks_self _

theorem listedTasks_eq_nil {arg : Arg} {right : Expr}
    (h : arg.Mirrored OneValue (fun _ _ => True) right)
    (hright : ∀ m, ¬OneValue (.member m) right) : r.listedTasks arg = [] := by
  unfold listedTasks
  split
  · exact absurd h (hright _)
  · rfl

/-- Of what `IN` accepts a member can only be a field. -/
theorem asks_checkIn {c : Comparison} {right : Expr}
    (h : c.arg.Mirrored OneValue (fun _ _ => True) right) :
    r.Asks levels (r.checkIn enough c right) (r.checkIn levels c right) (r.listedTasks c.arg) := by
  cases right with
  | field x => exact (asks_namesRepeated c.arg).map _
  | array es =>
    rw [listedTasks_eq_nil h fun _ => id]
    exact asks_self _
  | call package name args cost =>
    rw [listedTasks_eq_nil h fun _ => id]
    exact asks_self _
  | compare | and | or | not | value | map => exact asks_fail _ _

/-- Behind its first segment a path asks for the rest. -/
theorem asks_rest (message : Message) (path : List Leaf) :
    r.Asks levels (r.select (enough + 1) message path) (r.select (levels + 1) message path)
      (restTasks r.schema message path) := by
  cases path with
  | nil => exact asks_throw _
  | cons leaf rest =>
    rw [select, select]
    refine asks_ite (fun _ => asks_fail _ _) fun _ => ?_
    cases hfield : message.field? leaf.unquoted with
    | none => exact asks_fail _ _
    | some f =>
      cases rest with
      | nil => exact asks_self _
      | cons next rest =>
        rw [restTasks, hfield]
        dsimp only
        split
        · cases f.mapKey with
          | none => exact asks_throw _
          | some key =>
            cases f.mapValue with
            | none => exact asks_throw _
            | some value =>
              refine asks_after _ fun k => ?_
              cases rest with
              | nil => exact asks_self _
              | cons first rest =>
                dsimp only [Option.bind_some]
                cases r.schema.messageOf? value with
                | none => exact asks_fail _ _
                | some inner => exact (asks_path inner (first :: rest)).map _
        · cases r.schema.messageOf? f with
          | none => exact asks_fail _ _
          | some inner => exact (asks_path inner (next :: rest)).map _

/-- Where a path binds its first segment is the name of a field. -/
theorem indirect_ok {m : Member} {mode : ValueMode} {v : Expr} {s s' : List (Report ValueCause)}
    (h : r.indirect enough m mode s = .ok v s') :
    mode.allowIndirect = true ∧ (r.root.field? m.value.unquoted).isSome = true := by
  unfold indirect at h
  split at h
  · next hallow =>
    obtain ⟨x, s₁, hx, -⟩ := bind_ok.1 h
    obtain ⟨⟨places, hwalk, -, -⟩, -⟩ := (select_walk enough r.root m.path).of_ok hx
    obtain ⟨f, name⟩ := hwalk.exists_names
    exact ⟨hallow, by rw [name.field]; rfl⟩
  · cases h

section Members

variable (f : Field) (m : Member) (mode : ValueMode)

theorem wordTasks_eq_nil (h : m.value.isIdentifier = false) : r.wordTasks f m mode = [] := by
  rw [wordTasks, standsForField, namesField, h, Bool.and_false, Bool.false_and, Bool.false_and]
  rfl

/-- Only what is no bare word is read as a literal. -/
theorem asks_literal (h : m.value.isIdentifier = false) (x : Resolve Expr) :
    r.Asks levels x x (r.wordTasks f m mode) := by
  rw [wordTasks_eq_nil f m mode h]
  exact asks_self x

theorem asks_indirectOnly (h : f.isMap = true ∨ f.kind ≠ .enum) :
    r.Asks levels (r.indirectOnly enough f m mode) (r.indirectOnly levels f m mode)
      (r.wordTasks f m mode) := by
  refine asks_ite (fun hword => ?_) fun _ => asks_fail _ _
  intro s v s' hx
  obtain ⟨hallow, hfield⟩ := indirect_ok hx
  have hstands : r.standsForField f m mode = true := by
    have hplace : (f.isMap || (r.schema.enumValue? f m.value.unquoted).isNone) = true := by
      rcases h with h | h
      · rw [h, Bool.true_or]
      · rw [Schema.enumValue?, if_neg h, Option.isNone_none, Bool.or_true]
    rw [standsForField, namesField, hallow, hword, hfield, hplace]
    rfl
  rw [wordTasks, if_pos hstands]
  exact asks_indirect m mode s v s' hx

theorem asks_numericValue (h : f.kind ≠ .enum) :
    r.Asks levels (r.numericValue enough f m mode) (r.numericValue levels f m mode)
      (r.wordTasks f m mode) := by
  refine asks_ite (fun hnumber => ?_) fun _ => asks_indirectOnly f m mode (.inr h)
  refine asks_literal f m mode ?_ _
  unfold Leaf.isIdentifier
  cases hkind : m.value.kind <;> first | rfl | (rw [hkind] at hnumber; cases hnumber)

theorem asks_boolValue (h : f.kind ≠ .enum) :
    r.Asks levels (r.boolValue enough f m mode) (r.boolValue levels f m mode)
      (r.wordTasks f m mode) := by
  refine asks_ite (fun hbool => ?_) fun _ => asks_indirectOnly f m mode (.inr h)
  exact asks_literal f m mode (by rw [Leaf.isIdentifier, hbool]; rfl) _

theorem asks_timestampValue (h : f.kind ≠ .enum) :
    r.Asks levels (r.timestampValue enough f m mode) (r.timestampValue levels f m mode)
      (r.wordTasks f m mode) := by
  refine asks_ite (fun hkind => ?_) fun _ => asks_indirectOnly f m mode (.inr h)
  exact asks_literal f m mode (by rcases hkind with h | h <;> rw [Leaf.isIdentifier, h] <;> rfl) _

theorem asks_durationValue (h : f.kind ≠ .enum) :
    r.Asks levels (r.durationValue enough f m mode) (r.durationValue levels f m mode)
      (r.wordTasks f m mode) := by
  refine asks_ite (fun hkind => ?_) fun _ => asks_indirectOnly f m mode (.inr h)
  exact asks_literal f m mode (by rcases hkind with h | h <;> rw [Leaf.isIdentifier, h] <;> rfl) _

/-- Where a word may be a field, it is one if it names one. -/
theorem asks_namesField (h : (f.isMap || (r.schema.enumValue? f m.value.unquoted).isNone) = true)
    {x y : Resolve Expr} (hother : ¬r.namesField m mode = true → r.Asks levels x y []) :
    r.Asks levels (if r.namesField m mode then r.indirect enough m mode else x)
      (if r.namesField m mode then r.indirect levels m mode else y) (r.wordTasks f m mode) := by
  rw [wordTasks, standsForField, h, Bool.and_true]
  refine asks_ite (fun hnames => ?_) fun hnames => ?_
  · rw [if_pos hnames]
    exact asks_indirect m mode
  · rw [if_neg hnames]
    exact hother hnames

theorem asks_textValue (h : f.kind ≠ .enum) (x : Resolve Expr) :
    r.Asks levels (if r.namesField m mode then r.indirect enough m mode else x)
      (if r.namesField m mode then r.indirect levels m mode else x) (r.wordTasks f m mode) := by
  refine asks_namesField f m mode ?_ fun _ => asks_self x
  rw [Schema.enumValue?, if_neg h, Option.isNone_none, Bool.or_true]

/-- A value of the enum comes before a field. -/
theorem asks_enumValue (hmap : ¬f.isMap = true) :
    r.Asks levels (r.enumValue enough f m mode) (r.enumValue levels f m mode)
      (r.wordTasks f m mode) := by
  refine asks_ite (fun _ => ?_) fun _ => asks_fail _ _
  cases hvalue : r.schema.enumValue? f m.value.unquoted with
  | none =>
    exact asks_namesField f m mode (by rw [hvalue, Option.isNone_none, Bool.or_true])
      fun _ => asks_fail _ _
  | some n =>
    have hnone : r.wordTasks f m mode = [] := by
      rw [wordTasks, standsForField, hvalue, eq_false_of_ne_true hmap, Option.isNone_some,
        Bool.or_false, Bool.and_false]
      rfl
    rw [hnone]
    exact asks_self _

theorem asks_memberValue :
    r.Asks levels (r.memberValue enough f m mode) (r.memberValue levels f m mode)
      (r.wordTasks f m mode) := by
  refine asks_ite (fun hnull => ?_) fun _ => asks_ite (fun hmap => ?_) fun hmap => ?_
  · exact asks_literal f m mode (by rw [Leaf.isIdentifier, hnull]; rfl) _
  · exact asks_indirectOnly f m mode (.inl hmap)
  cases hwellKnown : r.schema.wellKnownOf? f with
  | some w =>
    have hkind : f.kind ≠ .enum := by
      intro hkind
      rw [wellKnownOf?_eq_none (by rw [hkind]; rfl)] at hwellKnown
      cases hwellKnown
    cases w with
    | timestamp => exact asks_timestampValue f m mode hkind
    | duration => exact asks_durationValue f m mode hkind
    | struct | value => exact asks_indirectOnly f m mode (.inr hkind)
  | none =>
    dsimp only
    split
    · next hkind => exact asks_boolValue f m mode (by rw [hkind]; decide)
    · next hkind => exact asks_textValue f m mode (by rw [hkind]; decide) _
    · next hkind => exact asks_textValue f m mode (by rw [hkind]; decide) _
    · exact asks_enumValue f m mode hmap
    · next hkind => exact asks_indirectOnly f m mode (.inr (by rw [hkind]; decide))
    · next hkind => exact asks_indirectOnly f m mode (.inr (by rw [hkind]; decide))
    · next henum _ _ => exact asks_numericValue f m mode henum

end Members

section Inner

include hhooks

theorem asks_comparable (f : Field) (c : Comparable) (mode : ValueMode) :
    r.Asks levels ((r.innerAt enough).comparable f c mode) ((r.innerAt levels).comparable f c mode)
      [.value f c mode] :=
  asks_task ((innerAt_deepens_or enough levels).imp (fun h => h.comparable f c mode)
      fun h => h.comparable f c mode)
    ((@innerAt_moved .nowhere r r.options.maxDepth hhooks levels).comparable f c mode).agree.left
    Iff.rfl

theorem asks_group (f : Field) (e : Expression) (mode : ValueMode) :
    r.Asks levels ((r.innerAt enough).group f e mode) ((r.innerAt levels).group f e mode)
      [.group f e mode] :=
  asks_task ((innerAt_deepens_or enough levels).imp (fun h => h.group f e mode)
      fun h => h.group f e mode)
    ((@innerAt_moved .nowhere r r.options.maxDepth hhooks levels).group f e mode).agree.left
    Iff.rfl

theorem asks_dynamic (c : Comparable) (mode : ValueMode) :
    r.Asks levels ((r.innerAt enough).dynamic c mode) ((r.innerAt levels).dynamic c mode)
      [.dynamic c mode] :=
  asks_task ((innerAt_deepens_or enough levels).imp (fun h => h.dynamic c mode)
      fun h => h.dynamic c mode)
    ((@innerAt_moved .nowhere r r.options.maxDepth hhooks levels).dynamic c mode).agree.left
    Iff.rfl

theorem asks_arg (f : Field) (arg : Arg) (mode : ValueMode) :
    r.Asks levels (argValue (r.innerAt enough) f arg mode) (argValue (r.innerAt levels) f arg mode)
      [argTask f mode arg] := by
  cases arg with
  | composite c => exact asks_group hhooks f c.expression mode
  | comparable c => exact asks_comparable hhooks f c mode

theorem asks_callArgs (s : Signature) (mode : ValueMode) (index : Nat) (args : List Arg) :
    r.Asks levels (callArgs (r.innerAt enough) s mode index args)
      (callArgs (r.innerAt levels) s mode index args) (argTasks s mode.required index args) := by
  induction args generalizing index with
  | nil => exact asks_self _
  | cons arg args ih =>
    rw [callArgs, callArgs, argTasks]
    cases s.parameter? index with
    | none => exact asks_throw _
    | some param =>
      exact (asks_arg hhooks param arg mode.required).bind fun _ _ => (ih _).map _

theorem asks_call (c : Call) (target : Option Field) (mode : ValueMode) :
    r.Asks levels (r.call (r.innerAt enough) c target mode)
      (r.call (r.innerAt levels) c target mode) (r.callTasks c mode) := by
  unfold call callTasks
  rw [hhooks.callHooks]
  change r.Asks levels (r.plainCall (r.innerAt enough) c _ target mode)
    (r.plainCall (r.innerAt levels) c _ target mode) _
  unfold plainCall
  cases r.options.function? (joinPath .unquoted c.name) with
  | none => exact asks_fail _ _
  | some s =>
    exact asks_ite (fun _ => asks_fail _ _) fun _ => (asks_callArgs hhooks s mode 0 c.args).map _

theorem asks_callValue (c : Call) (target : Option Field) (mode : ValueMode) :
    r.Asks levels (r.callValue (r.innerAt enough) c target mode)
      (r.callValue (r.innerAt levels) c target mode) (r.callTasks c mode) :=
  (asks_call hhooks c target mode).map _

theorem asks_dynamicEntries (mode : ValueMode) (seen : List String) (entries : List StructEntry) :
    r.Asks levels (dynamicEntries (r.innerAt enough) mode seen entries)
      (dynamicEntries (r.innerAt levels) mode seen entries)
      (entries.map fun e => .dynamic e.value mode) := by
  induction entries generalizing seen with
  | nil => exact asks_self _
  | cons entry entries ih =>
    rw [dynamicEntries, dynamicEntries, List.map_cons]
    exact asks_ite (fun _ => asks_fail _ _) fun _ =>
      (asks_dynamic hhooks entry.value mode).bind fun _ _ => (ih _).map _

theorem asks_mapEntries (key value : Field) (mode : ValueMode) (seen : List MapKey)
    (entries : List StructEntry) :
    r.Asks levels (mapEntries (r.innerAt enough) key value mode seen entries)
      (mapEntries (r.innerAt levels) key value mode seen entries)
      (entries.map fun e => .value value e.value mode) := by
  induction entries generalizing seen with
  | nil => exact asks_self _
  | cons entry entries ih =>
    rw [mapEntries, mapEntries, List.map_cons]
    exact asks_after _ fun _ => asks_ite (fun _ => asks_fail _ _) fun _ =>
      (asks_comparable hhooks value entry.value mode).bind fun _ _ => (ih _).map _

theorem asks_messageEntries (message : Message) (mode : ValueMode) (seen : List String)
    (entries : List StructEntry) :
    r.Asks levels (messageEntries (r.innerAt enough) message mode seen entries)
      (messageEntries (r.innerAt levels) message mode seen entries)
      (fieldTasks message mode.required entries) := by
  induction entries generalizing seen with
  | nil => exact asks_self _
  | cons entry entries ih =>
    rw [messageEntries, messageEntries, fieldTasks, List.flatMap_cons]
    cases message.field? entry.name.unquoted with
    | none => exact asks_fail _ _
    | some sub =>
      exact asks_ite (fun _ => asks_fail _ _) fun _ =>
        (asks_comparable hhooks sub entry.value mode.required).bind fun _ _ => (ih _).map _

theorem asks_instantEntries (w : WellKnown) (message : Message) (seconds nanos : Option Int)
    (entries : List StructEntry) :
    r.Asks levels (instantEntries (r.innerAt enough) w message seconds nanos entries)
      (instantEntries (r.innerAt levels) w message seconds nanos entries)
      (fieldTasks message .direct entries) := by
  induction entries generalizing seconds nanos with
  | nil => exact asks_self _
  | cons entry entries ih =>
    rw [instantEntries, instantEntries, fieldTasks, List.flatMap_cons]
    refine asks_ite (fun _ => asks_fail _ _) fun _ => asks_ite (fun _ => asks_fail _ _) fun _ => ?_
    cases message.field? entry.name.unquoted with
    | none => exact asks_throw _
    | some sub =>
      refine (asks_comparable hhooks sub entry.value .direct).bind fun v _ => ?_
      split
      · exact asks_ite (fun _ => ih _ _) fun _ => ih _ _
      · exact asks_fail _ _

theorem asks_instant (f : Field) (s : StructLiteral) (w : WellKnown) :
    r.Asks levels (r.instant (r.innerAt enough) f s w) (r.instant (r.innerAt levels) f s w)
      ((r.schema.messageOf? f).toList.flatMap fun m => fieldTasks m .direct s.entries) := by
  refine asks_after _ fun _ => ?_
  cases r.schema.messageOf? f with
  | none => exact asks_throw _
  | some m =>
    rw [Option.toList_some, List.flatMap_singleton]
    exact asks_instantEntries hhooks w m none none s.entries

theorem asks_dynamicMap (s : StructLiteral) (mode : ValueMode) :
    r.Asks levels (dynamicMap (r.innerAt enough) s mode) (dynamicMap (r.innerAt levels) s mode)
      (s.entries.map fun e => .dynamic e.value mode) :=
  asks_after _ fun _ => (asks_dynamicEntries hhooks mode [] s.entries).map _

theorem asks_mapStruct (f : Field) (s : StructLiteral) (mode : ValueMode) :
    r.Asks levels (mapStruct (r.innerAt enough) f s mode) (mapStruct (r.innerAt levels) f s mode)
      (f.mapValue.toList.flatMap fun value => s.entries.map fun e =>
        .value value e.value mode) := by
  refine asks_ite (fun _ => asks_fail _ _) fun _ => ?_
  cases f.mapKey with
  | none => exact asks_throw _
  | some key =>
    cases f.mapValue with
    | none => exact asks_throw _
    | some value =>
      rw [Option.toList_some, List.flatMap_singleton]
      exact (asks_mapEntries hhooks key value mode [] s.entries).map _

theorem asks_messageStruct (f : Field) (s : StructLiteral) (mode : ValueMode) :
    r.Asks levels (r.messageStruct (r.innerAt enough) f s mode)
      (r.messageStruct (r.innerAt levels) f s mode)
      ((r.schema.messageOf? f).toList.flatMap fun m => fieldTasks m mode.required s.entries) := by
  unfold messageStruct
  cases r.schema.messageOf? f with
  | none => exact asks_throw _
  | some m =>
    rw [Option.toList_some, List.flatMap_singleton]
    exact asks_after _ fun _ =>
      (asks_messageEntries hhooks m mode [] s.entries).map _

theorem asks_structValue (f : Field) (s : StructLiteral) (mode : ValueMode) :
    r.Asks levels (r.structValue (r.innerAt enough) f s mode)
      (r.structValue (r.innerAt levels) f s mode) (r.structTasks f s mode) := by
  unfold structValue structTasks
  split
  · exact asks_mapStruct hhooks f s mode
  cases r.schema.wellKnownOf? f with
  | none => exact asks_ite (fun _ => asks_messageStruct hhooks f s mode) fun _ => asks_fail _ _
  | some w =>
    cases w with
    | timestamp => exact (asks_instant hhooks f s .timestamp).map _
    | duration => exact (asks_instant hhooks f s .duration).map _
    | struct => exact asks_dynamicMap hhooks s mode
    | value => exact asks_dynamic hhooks (.struct s) mode

omit hhooks in
/-- Items that ask for a task each. -/
theorem asks_items {γ α : Type} {f g : γ → Resolve α} {t : γ → Task} {xs : List γ}
    (h : ∀ x, r.Asks levels (f x) (g x) [t x]) :
    r.Asks levels (xs.mapM f) (xs.mapM g) (xs.map t) := by
  rw [List.map_eq_flatMap]
  exact asks_mapM fun x _ => h x

theorem asks_comparableBody (f : Field) (c : Comparable) (mode : ValueMode) :
    r.Asks levels (r.comparableBody enough (r.innerAt enough) f c mode)
      (r.comparableBody levels (r.innerAt levels) f c mode) (r.valueTasks f c mode) := by
  cases c with
  | array a =>
    exact asks_ite (fun _ => asks_fail _ _) fun _ =>
      (asks_items fun e => asks_comparable hhooks f e mode).map _
  | call c => exact asks_callValue hhooks c (some f) mode
  | struct s => exact asks_structValue hhooks f s mode
  | member m =>
    unfold comparableBody valueTasks
    dsimp only
    split
    · exact asks_dynamic hhooks (.member m) mode
    · exact asks_memberValue f m mode

theorem asks_dynamicBody (c : Comparable) (mode : ValueMode) :
    r.Asks levels (r.dynamicBody (r.innerAt enough) c mode)
      (r.dynamicBody (r.innerAt levels) c mode) (r.dynamicTasks c mode) := by
  cases c with
  | array a => exact (asks_items fun e => asks_dynamic hhooks e mode).map _
  | call c => exact asks_callValue hhooks c none mode
  | struct s => exact asks_dynamicMap hhooks s mode
  | member m => exact asks_self _

omit hhooks in
/-- A level of logic asks for what its operands ask for. -/
theorem asks_logic {f g : Term → Resolve Expr} {ts : Simple → List Task}
    (h : ∀ t, r.Asks levels (f t) (g t) (ts t.simple)) (e : Expression) :
    r.Asks levels
      (do
        let sequences ← e.sequences.mapM fun s => do
          let factors ← s.factors.mapM fun x => do
            let terms ← x.terms.mapM f
            return Expr.disjunction terms
          return Expr.conjunction factors
        return Expr.conjunction sequences)
      (do
        let sequences ← e.sequences.mapM fun s => do
          let factors ← s.factors.mapM fun x => do
            let terms ← x.terms.mapM g
            return Expr.disjunction terms
          return Expr.conjunction factors
        return Expr.conjunction sequences)
      (e.simples.flatMap ts) := by
  simp only [Expression.simples, List.flatMap_assoc, List.flatMap_map]
  refine (asks_mapM fun s _ => ?_).map _
  refine (asks_mapM fun x _ => ?_).map _
  exact (asks_mapM fun t _ => h t).map _

theorem asks_groupBody (f : Field) (e : Expression) (mode : ValueMode) :
    r.Asks levels (groupBody (r.innerAt enough) f e mode) (groupBody (r.innerAt levels) f e mode)
      (r.asked (.group f e mode)) := by
  rw [asked, List.map_eq_flatMap]
  refine asks_logic (fun t => ?_) e
  dsimp only
  cases t.simple with
  | composite c => exact (asks_group hhooks f c.expression mode).map _
  | restriction x =>
    cases hx : x.comparison with
    | some c =>
      simp only [hx]
      exact asks_fail _ _
    | none =>
      simp only [hx]
      exact (asks_comparable hhooks f x.comparable mode).map _

theorem asks_alone (c : Comparable) :
    r.Asks levels (r.alone enough c) (r.alone levels c) (r.aloneTasks c) := by
  cases c with
  | member m =>
    unfold alone aloneTasks
    dsimp only
    rw [namesField, Bool.true_and]
    refine asks_ite (fun hnames => ?_) fun hnames => ?_
    · rw [if_pos hnames]
      exact (asks_path r.root m.path).map _
    · rw [if_neg hnames]
      exact asks_self _
  | call c => exact asks_call hhooks c none ⟨true, false⟩
  | struct s => exact asks_fail _ _
  | array a => exact asks_fail _ _

theorem asks_leftSide (c : Comparable) :
    r.Asks levels (r.leftSide enough c) (r.leftSide levels c) (r.leftTasks c) := by
  cases c with
  | member m => exact (asks_path r.root m.path).map _
  | call c =>
    unfold leftSide
    dsimp only
    cases (r.options.function? (joinPath .unquoted c.name)).bind Signature.result with
    | none => exact asks_fail _ _
    | some result => exact (asks_call hhooks c none ⟨true, false⟩).map _
  | struct s => exact asks_fail _ _
  | array a => exact asks_fail _ _

theorem asks_rightSide (target : Field) (c : Comparison) :
    r.Asks levels (r.rightSide enough target c) (r.rightSide levels target c)
      (r.rightTasks target c) := by
  have harg (f : Field) := @asks_arg r levels hhooks enough f c.arg ⟨r.options.allowIndirect, false⟩
  obtain ⟨comparator, pos, arg⟩ := c
  cases comparator with
  | has =>
    unfold rightSide rightTasks
    dsimp only
    split
    · cases target.mapKey with
      | none => exact asks_throw _
      | some key => exact harg key
    · exact harg target
  | isIn =>
    rw [rightSide_isIn rfl, rightSide_isIn rfl]
    refine (harg target).bind fun right ⟨s, s', hright⟩ => asks_checkIn ?_
    have hr : r.Ready True := ⟨hhooks, fun hfault => absurd trivial hfault⟩
    exact (((oneValue_mirror r).innerAt hr enough).argValue arg).of_ok hright |>.1
  | equals | notEquals | lessThan | lessEquals | greaterThan | greaterEquals => exact harg target

theorem asks_restriction (x : Restriction) :
    r.Asks levels (r.restriction enough x) (r.restriction levels x) (r.restrictionTasks x) := by
  obtain ⟨span, comparable, comparison⟩ := x
  cases comparison with
  | none => exact asks_alone hhooks comparable
  | some c =>
    rw [restriction_comparison hhooks, restriction_comparison hhooks, restrictionTasks]
    refine (asks_leftSide hhooks comparable).bind fun x ⟨s, s', hx⟩ => ?_
    rw [comparedField?_eq hx, Option.toList_some, List.flatMap_singleton]
    exact (asks_rightSide hhooks x.2 c).map _

theorem asks_expression (e : Expression) :
    r.Asks levels (r.expression enough e) (r.expression levels e) [.expression e] := by
  refine asks_task ?_ (@expression_moved .nowhere r r.options.maxDepth hhooks levels e).agree.left
    Iff.rfl
  exact (le_total enough levels).imp
    (fun h => @expression_deepens r _ _ hhooks r.options.maxDepth h e)
    (fun h => @expression_deepens r _ _ hhooks r.options.maxDepth h e)

theorem asks_expressionBody (e : Expression) :
    r.Asks levels (r.expressionBody enough (r.expression enough) e)
      (r.expressionBody levels (r.expression levels) e) (r.asked (.expression e)) := by
  rw [asked]
  refine asks_logic (fun t => ?_) e
  dsimp only
  cases t.simple with
  | composite c => exact (asks_expression hhooks c.expression).map _
  | restriction x => exact (asks_restriction hhooks x).map _

end Inner

end Routines

section Chains

variable (hhooks : r.options.HookFree) {enough : Nat} {t : Task}

theorem not_done_zero : ¬r.Done 0 t := by
  cases t with
  | expression e | group f e mode | value f c mode | dynamic c mode =>
    rintro ⟨v, s, h⟩
    cases h
  | path message path =>
    rintro ⟨x, s, h⟩
    cases path <;> cases h

theorem Asks.succeeds_iff {α : Type} {x y : Resolve α} {ts : List Task}
    (h : r.Asks levels x y ts) (hx : Succeeds x []) :
    Succeeds y [] ↔ ∀ u ∈ ts, r.Done levels u := by
  obtain ⟨a, s, hx⟩ := hx
  constructor
  · rintro ⟨b, s', hy⟩
    exact ((h [] a s hx b s').1 hy).2.2
  · intro hts
    exact ⟨a, s, (h [] a s hx a s).2 ⟨rfl, rfl, hts⟩⟩

include hhooks

/-- A task that can be done at all can be done when all that it asks for can be done one level
down. -/
theorem done_succ_iff (h : r.Done enough t) :
    r.Done (levels + 1) t ↔ ∀ u ∈ r.asked t, r.Done levels u := by
  cases enough with
  | zero => exact absurd h not_done_zero
  | succ enough =>
    cases t with
    | expression e => exact (asks_expressionBody hhooks e).succeeds_iff h
    | group f e mode => exact (asks_groupBody hhooks f e mode).succeeds_iff h
    | value f c mode => exact (asks_comparableBody hhooks f c mode).succeeds_iff h
    | dynamic c mode => exact (asks_dynamicBody hhooks c mode).succeeds_iff h
    | path message path => exact (asks_rest message path).succeeds_iff h

/-- So many levels are enough when no chain of tasks is longer. -/
theorem done_iff_chain (h : r.Done enough t) :
    r.Done levels t ↔ ∀ n, r.Chain t n → n ≤ levels := by
  -- a chain goes on with a task that is asked for, one level down
  induction levels generalizing enough t with
  | zero =>
    refine iff_of_false not_done_zero fun hchain => ?_
    exact absurd (hchain 1 (.one t)) (by omega)
  | succ levels ih =>
    cases enough with
    | zero => exact absurd h not_done_zero
    | succ enough =>
      have hasked := (done_succ_iff hhooks h).1 h
      rw [done_succ_iff hhooks h]
      constructor
      · intro hdone n hchain
        cases hchain with
        | one => omega
        | more asks chain =>
          have hle := (ih (hasked _ asks)).1 (hdone _ asks) _ chain
          omega
      · intro hchain u hu
        refine (ih (hasked u hu)).2 fun n hn => ?_
        have hle := hchain (n + 1) (.more hu hn)
        omega

/-- The least number of levels for a task is the length of its longest chain. -/
theorem isGreatest_chain {least : Nat} (h : ∀ levels, r.Done levels t ↔ least ≤ levels) :
    IsGreatest {n | r.Chain t n} least := by
  have hdone : r.Done least t := (h least).2 le_rfl
  have hupper := (done_iff_chain hhooks hdone).1 hdone
  refine ⟨?_, hupper⟩
  by_contra hmem
  have hless : r.Done (least - 1) t := by
    refine (done_iff_chain hhooks hdone).2 fun n hn => ?_
    have hne : n ≠ least := fun heq => hmem (heq ▸ hn)
    have hle := hupper n hn
    omega
  have hle := (h _).1 hless
  have hone := hupper 1 (.one t)
  omega

end Chains

end Resolver

end ListQuery.Filter
