/-
What a step of resolution comes to. It gives a value and reports nothing, or it fails with a value
error and the one report of it. The third outcome, any other error, is only there when `faults`
holds: so one walk through the resolver says both what its values are and that it has no other
errors.
-/
import ListQuery.Filter.Resolve.Options

namespace ListQuery.Filter.Resolve

variable {α β : Type} {faults : Prop} {Q : α → Prop} {R : β → Prop}

inductive Outcome (faults : Prop) (Q : α → Prop) (reports : List (Report ValueCause)) :
    EStateM.Result FilterError (List (Report ValueCause)) α → Prop
  | value {a : α} (h : Q a) : Outcome faults Q reports (.ok a reports)
  | reported (pos : Position) (cause : ValueCause) :
    Outcome faults Q reports (.error (.invalidValue pos) (reports ++ [⟨pos, cause⟩]))
  | fault (h : faults) (e : FilterError) (after : List (Report ValueCause)) :
    Outcome faults Q reports (.error e after)

/-- Every value of a step has the property, and its failures are reported or faults. -/
def Meets (faults : Prop) (x : Resolve α) (Q : α → Prop) : Prop :=
  ∀ reports, Outcome faults Q reports (x reports)

theorem meets_pure {a : α} (h : Q a) : Meets faults (pure a) Q := fun _ => .value h

theorem meets_fail (pos : Position) (cause : ValueCause) : Meets faults (fail pos cause) Q :=
  fun _ => .reported pos cause

/-- Another error is thrown only where nothing rules faults out. -/
theorem meets_throw (h : ¬faults → False) (e : FilterError) : Meets faults (throw e) Q :=
  fun _ => .fault (Classical.byContradiction h) e _

theorem Meets.bind {x : Resolve α} {f : α → Resolve β} (hx : Meets faults x Q)
    (hf : ∀ a, Q a → Meets faults (f a) R) : Meets faults (x >>= f) R := by
  intro reports
  have hr := hx reports
  change Outcome faults R reports (EStateM.bind x f reports)
  unfold EStateM.bind
  generalize x reports = result at hr ⊢
  cases hr with
  | value ha => exact hf _ ha reports
  | reported pos cause => exact .reported pos cause
  | fault hfault e after => exact .fault hfault e after

theorem Meets.mono {x : Resolve α} {P : α → Prop} (hx : Meets faults x Q)
    (h : ∀ a, Q a → P a) : Meets faults x P := by
  intro reports
  have hr := hx reports
  generalize x reports = result at hr ⊢
  cases hr with
  | value ha => exact .value (h _ ha)
  | reported pos cause => exact .reported pos cause
  | fault hfault e after => exact .fault hfault e after

/-- A run that gives a value leaves the reports alone. -/
theorem Meets.of_ok {x : Resolve α} (hx : Meets faults x Q) {a : α}
    {s s' : List (Report ValueCause)} (h : x s = .ok a s') : Q a ∧ s' = s := by
  have hr := hx s
  rw [h] at hr
  cases hr with
  | value ha => exact ⟨ha, rfl⟩

/-- A step whose value is only passed on. -/
theorem Meets.map {x : Resolve α} (g : α → β) (hx : Meets faults x Q) (h : ∀ a, Q a → R (g a)) :
    Meets faults (do return g (← x)) R :=
  hx.bind fun a ha => meets_pure (h a ha)

theorem meets_mapM {γ : Type} {f : γ → Resolve α} {xs : List γ}
    (h : ∀ x ∈ xs, Meets faults (f x) Q) : Meets faults (xs.mapM f) fun as => ∀ a ∈ as, Q a := by
  induction xs with
  | nil => exact meets_pure (by simp)
  | cons x xs ih =>
    rw [List.mapM_cons]
    refine (h x List.mem_cons_self).bind fun a ha => ?_
    refine (ih fun y hy => h y (List.mem_cons_of_mem _ hy)).bind fun as has => ?_
    exact meets_pure (List.forall_mem_cons.2 ⟨ha, has⟩)

/-- A branch that a test chooses. -/
theorem meets_ite {c : Prop} [Decidable c] {x y : Resolve α} (hx : c → Meets faults x Q)
    (hy : ¬c → Meets faults y Q) : Meets faults (if c then x else y) Q := by
  split
  · exact hx ‹_›
  · exact hy ‹_›

end ListQuery.Filter.Resolve
