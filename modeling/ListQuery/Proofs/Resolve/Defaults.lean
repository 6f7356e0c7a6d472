/-
What a field's hook gets when it asks for the default value of the right side. It gets the argument
as a value of the field, read with all levels of nesting. Without the hook the right side is that
too, as long as the levels suffice, but for two comparators: `:` on a map reads the argument as a key
of the map, and `IN` accepts only some of the values. Main statement: `Resolver.default_of_hook`.
-/
import ListQuery.Proofs.Resolve.Filters
import ListQuery.Proofs.Resolve.Levels
import ListQuery.Proofs.Tree.Shape

namespace ListQuery.Filter

open Resolve

namespace Resolver

variable {r : Resolver} {hooks : List (String × FieldHook)} {levels : Nat}

/-- The resolver with other hooks of fields. -/
def withFieldHooks (r : Resolver) (hooks : List (String × FieldHook)) : Resolver :=
  { r with options := { r.options with fieldHooks := hooks } }

theorem select_withFieldHooks (levels : Nat) (message : Message) (path : List Leaf) :
    (r.withFieldHooks hooks).select levels message path = r.select levels message path := by
  induction levels generalizing message path with
  | zero => cases path <;> rfl
  | succ levels ih =>
    cases path with
    | nil => rfl
    | cons leaf rest =>
      simp only [select, ih]
      rfl

theorem indirect_withFieldHooks (levels : Nat) (m : Member) (mode : ValueMode) :
    (r.withFieldHooks hooks).indirect levels m mode = r.indirect levels m mode := by
  simp only [indirect, selectRoot, select_withFieldHooks]
  rfl

/-- Members ask for other fields only through `indirect`. -/
theorem memberValue_withFieldHooks (levels : Nat) (f : Field) (m : Member) (mode : ValueMode) :
    (r.withFieldHooks hooks).memberValue levels f m mode = r.memberValue levels f m mode := by
  simp only [memberValue, indirectOnly, numericValue, boolValue, stringValue, bytesValue, enumValue,
    timestampValue, durationValue, indirect_withFieldHooks]
  rfl

theorem comparableBody_withFieldHooks (levels : Nat) (inner : Inner) (f : Field) (c : Comparable)
    (mode : ValueMode) : (r.withFieldHooks hooks).comparableBody levels inner f c mode =
      r.comparableBody levels inner f c mode := by
  cases c with
  | member m =>
    simp only [comparableBody, memberValue_withFieldHooks]
    rfl
  | call | struct | array => rfl

theorem innerAt_withFieldHooks (levels : Nat) :
    (r.withFieldHooks hooks).innerAt levels = r.innerAt levels := by
  induction levels with
  | zero =>
    simp only [innerAt, Inner.mk.injEq]
    refine ⟨?_, ?_, ?_⟩
    · funext f c mode; rfl
    · funext f e mode; rfl
    · funext c mode; rfl
  | succ levels ih =>
    simp only [innerAt, Inner.mk.injEq] at ih ⊢
    obtain ⟨hcomparable, hgroup, hdynamic⟩ := ih
    refine ⟨?_, ?_, ?_⟩
    · funext f c mode
      simp only [comparableValue, comparableBody_withFieldHooks, hcomparable, hgroup, hdynamic]
      rfl
    · funext f e mode
      simp only [groupValue, hcomparable, hgroup, hdynamic]
      rfl
    · funext c mode
      simp only [dynamicValue, hcomparable, hgroup, hdynamic]
      rfl

theorem rightSide_withFieldHooks (levels : Nat) (target : Field) (c : Comparison) :
    (r.withFieldHooks hooks).rightSide levels target c = r.rightSide levels target c := by
  have hnames : (r.withFieldHooks hooks).namesRepeated levels c.arg =
      r.namesRepeated levels c.arg := by
    unfold namesRepeated
    simp only [selectRoot, select_withFieldHooks]
    rfl
  simp only [rightSide, innerAt_withFieldHooks, hnames]
  rfl

/-- What the hook of a field is given. -/
def hookContext (r : Resolver) (restriction : Restriction) (comparison : Comparison)
    (selector : Selector) (field : Field) : FieldHookContext where
  restriction
  comparison
  field
  selector
  allowIndirect := r.options.allowIndirect
  defaultValue := r.freshValue field comparison.arg ⟨r.options.allowIndirect, false⟩

/-- The comparison of a path with a right side. -/
def compared (selector : Selector) (op : Comparator) (right : Resolve Expr) : Resolve Expr := do
  return .compare (.field selector) op (← right)

section Comparison

variable {m : Member} {c : Comparison} {span : Span} {selector : Selector} {target : Field}
  {s s₁ : List (Report ValueCause)}

/-- A comparison with a path on its left side, once the path is bound to a field. -/
theorem restriction_path (hpath : r.selectRoot levels m.path s = .ok (selector, target) s₁) :
    r.restriction levels ⟨span, .member m, some c⟩ s =
      (do
        match ← r.hooked ⟨span, .member m, some c⟩ c (.field selector) target with
        | some e => pure e
        | none => compared selector c.comparator (r.rightSide levels target c)) s₁ := by
  simp only [restriction, leftSide, bind_assoc, pure_bind]
  show (r.selectRoot levels m.path >>= _) s = _
  simp only [bind, EStateM.bind, hpath]
  rfl

theorem restriction_hooked {hook : FieldHook}
    (hhook : lookup? (joinPath .unquoted m.path) r.options.fieldHooks = some hook)
    (hpath : r.selectRoot levels m.path s = .ok (selector, target) s₁) :
    r.restriction levels ⟨span, .member m, some c⟩ s =
      (do
        match ← hook (r.hookContext ⟨span, .member m, some c⟩ c selector target) with
        | some e => pure e
        | none => compared selector c.comparator (r.rightSide levels target c)) s₁ := by
  rw [restriction_path hpath]
  simp only [hooked, hhook]
  rfl

theorem restriction_unhooked
    (hhook : lookup? (joinPath .unquoted m.path) r.options.fieldHooks = none)
    (hpath : r.selectRoot levels m.path s = .ok (selector, target) s₁) :
    r.restriction levels ⟨span, .member m, some c⟩ s =
      compared selector c.comparator (r.rightSide levels target c) s₁ := by
  rw [restriction_path hpath]
  simp only [hooked, hhook, pure_bind]

theorem restriction_withFieldHooks (hhooks : lookup? (joinPath .unquoted m.path) hooks = none)
    (hpath : r.selectRoot levels m.path s = .ok (selector, target) s₁) :
    (r.withFieldHooks hooks).restriction levels ⟨span, .member m, some c⟩ s =
      compared selector c.comparator (r.rightSide levels target c) s₁ := by
  have hpath : (r.withFieldHooks hooks).selectRoot levels m.path s = .ok (selector, target) s₁ := by
    rw [selectRoot, select_withFieldHooks]
    exact hpath
  rw [restriction_unhooked hhooks hpath, rightSide_withFieldHooks]

/-! ## Right sides -/

/-- Comparisons that take any value of the field on the left. -/
def Plain (c : Comparison) (target : Field) : Prop :=
  c.comparator ≠ .isIn ∧ (c.comparator = .has → target.isMap = false)

theorem rightSide_plain (h : Plain c target) :
    r.rightSide levels target c =
      argValue (r.innerAt levels) target c.arg ⟨r.options.allowIndirect, false⟩ := by
  unfold rightSide
  dsimp only
  split
  · rw [h.2 ‹_›]
    rfl
  · exact absurd ‹_› h.1
  · rfl

theorem rightSide_key (hc : c.comparator = .has) (hmap : target.isMap = true) {key : Field}
    (hkey : target.mapKey = some key) :
    r.rightSide levels target c =
      argValue (r.innerAt levels) key c.arg ⟨r.options.allowIndirect, false⟩ := by
  simp only [rightSide, hc, hmap, hkey, ↓reduceIte]

/-- The hook of a path is asked about a comparison with the default value of the right side at
hand. That is the right side which the comparison has without the hook, unless this one goes too
deep; but `IN` checks the value, and `:` on a map takes a key for it. -/
theorem default_of_hook {hook : FieldHook}
    (hhook : lookup? (joinPath .unquoted m.path) r.options.fieldHooks = some hook)
    (hhooks : lookup? (joinPath .unquoted m.path) hooks = none)
    (hlevels : levels ≤ r.options.maxDepth)
    (hpath : r.selectRoot levels m.path s = .ok (selector, target) s₁) :
    let context := r.hookContext ⟨span, .member m, some c⟩ c selector target
    let right := r.rightSide levels target c
    r.restriction levels ⟨span, .member m, some c⟩ s =
      (do
        match ← hook context with
        | some e => pure e
        | none => compared selector c.comparator right) s₁ ∧
    (r.withFieldHooks hooks).restriction levels ⟨span, .member m, some c⟩ s =
      compared selector c.comparator right s₁ ∧
    (Plain c target → r.Deepens right context.defaultValue) ∧
    (c.comparator = .isIn →
      r.Deepens right (context.defaultValue >>= r.checkIn r.options.maxDepth c)) ∧
    ∀ key, c.comparator = .has → target.isMap = true → target.mapKey = some key →
      r.Deepens right (r.freshValue key c.arg ⟨r.options.allowIndirect, false⟩) := by
  have hright : r.Deepens (r.rightSide levels target c)
      (r.rightSide r.options.maxDepth target c) := rightSide_deepens hlevels target c
  refine ⟨restriction_hooked hhook hpath, restriction_withFieldHooks hhooks hpath, fun h => ?_,
    fun h => ?_, fun key hc hmap hkey => ?_⟩
  · rw [@rightSide_plain r r.options.maxDepth _ _ h, ← freshValue_eq] at hright
    exact hright
  · rw [@rightSide_isIn r r.options.maxDepth _ h, ← freshValue_eq] at hright
    exact hright
  · rw [@rightSide_key r r.options.maxDepth _ _ hc hmap _ hkey, ← freshValue_eq] at hright
    exact hright

end Comparison

end Resolver

/-- A hook that compares for equality with the default value. -/
def defaultHook : FieldHook := fun context => do
  return some (.compare (.field context.selector) .equals (← context.defaultValue))

/-- Filters of events with a hook of the counts. -/
def hookedEvents : Resolver :=
  { eventResolver with options := eventResolver.options.withFieldHook "counts" defaultHook }

/-- A comparison with a single word. -/
def Comparison.withWord (op : Comparator) (word : String) : Comparison :=
  ⟨op, .start, .comparable (.member (.ofWords word []))⟩

/-- Without the hook `counts : env` asks for the key `env`. The hook gets no default value there. -/
theorem key_is_no_default : ∃ selector target,
    hookedEvents.selectRoot 3 (Member.ofWords "counts" []).path [] = .ok (selector, target) [] ∧
    (hookedEvents.withFieldHooks []).restriction 3
      ⟨.nowhere, .member (.ofWords "counts" []), some (.withWord .has "env")⟩ [] =
        .ok (.compare (.field selector) .has (.value (.string "env"))) [] ∧
    (∀ e s, (hookedEvents.hookContext
      ⟨.nowhere, .member (.ofWords "counts" []), some (.withWord .has "env")⟩ (.withWord .has "env")
        selector target).defaultValue [] ≠ .ok e s) := by
  refine ⟨_, _, rfl, ?_, ?_⟩
  · have hdefault := @Resolver.default_of_hook hookedEvents [] 3 (.ofWords "counts" [])
      (.withWord .has "env") .nowhere _ _ [] [] defaultHook rfl rfl (by decide) rfl
    rw [hdefault.2.1]
    rfl
  · intro e s h
    cases h

end ListQuery.Filter
