/-
Values of fields, one lemma for each function that resolves them: what it gives is a value of the
field without comparisons, it reads nothing where the mode does not allow it, and it fails only as
it should. Null is a value only of fields that say so, since no place inside a filter is optional.
-/
import ListQuery.Filter.Resolve.Value
import ListQuery.Proofs.Resolve.Paths

namespace ListQuery.Filter

open Resolve

namespace Resolver

variable {faults : Prop} {r : Resolver} {f : Field} {mode : ValueMode}

theorem noFields_meets (m : Member) : Meets faults (noFields m) fun _ => True := by
  unfold noFields
  split
  · exact meets_fail _ _
  · exact meets_pure trivial

theorem selectRoot_meets (h : r.Ready faults) (levels : Nat) (m : Member) :
    Meets faults (r.selectRoot levels m.path) fun x =>
      fieldAt? r.schema r.root x.1 = some x.2 ∧ (¬faults → r.schema.Sound x.2) :=
  select_meets h levels r.root m.path (fun hfault => (h.sound hfault).root) (List.cons_ne_nil _ _)

theorem indirect_meets (h : r.Ready faults) (levels : Nat) (m : Member) :
    Meets faults (r.indirect levels m mode) (Typed r.schema f mode) := by
  unfold indirect
  refine meets_ite (fun hmode => ?_) fun _ => meets_fail _ _
  exact (selectRoot_meets h levels m).bind fun x _ => meets_pure (.field hmode x.1)

theorem nullValue_meets (hmode : mode.optional = false) (m : Member) :
    Meets faults (nullValue f m mode) (Typed r.schema f mode) := by
  unfold nullValue
  refine (noFields_meets m).bind fun _ _ => meets_ite (fun hnull => ?_) fun _ => meets_fail _ _
  rw [hmode, Bool.or_false] at hnull
  refine meets_pure ⟨?_, rfl, fun _ => rfl⟩
  simp [Expr.wellTyped, Value.conformsTo, Value.partsTyped, hnull]

theorem indirectOnly_meets (h : r.Ready faults) (levels : Nat) (m : Member) :
    Meets faults (r.indirectOnly levels f m mode) (Typed r.schema f mode) := by
  unfold indirectOnly
  exact meets_ite (fun _ => indirect_meets h levels m) fun _ => mismatch_meets f _

section

/-! Fields of scalar kinds are of no well-known type. -/

variable (h : r.Ready faults) (hw : r.schema.wellKnownOf? f = none) (levels : Nat) (m : Member)

include h hw

theorem numericValue_meets :
    Meets faults (r.numericValue levels f m mode) (Typed r.schema f mode) := by
  unfold numericValue
  refine meets_ite (fun _ => ?_) fun _ => indirectOnly_meets h levels m
  refine (noFields_meets m).bind fun _ _ => meets_ite (fun hk => ?_) fun _ => ?_
  · refine (floatLiteral_meets f m.value).bind fun x _ => meets_pure ?_
    exact Value.typed_of_fitsKind hw hk rfl rfl fun _ => rfl
  · refine (integerLiteral_meets r.schema f m.value).bind fun k hk => meets_pure ?_
    cases k <;> exact Value.typed_of_fitsKind hw hk rfl rfl fun _ => rfl

theorem boolValue_meets (hk : f.kind = .bool) :
    Meets faults (r.boolValue levels f m mode) (Typed r.schema f mode) := by
  unfold boolValue
  refine meets_ite (fun _ => ?_) fun _ => indirectOnly_meets h levels m
  refine (noFields_meets m).bind fun _ _ => meets_pure ?_
  exact Value.typed_of_fitsKind hw (by simp [Value.fitsKind, hk]) rfl rfl fun _ => rfl

theorem stringValue_meets (hk : f.kind = .string) :
    Meets faults (r.stringValue levels m mode) (Typed r.schema f mode) := by
  unfold stringValue
  refine meets_ite (fun _ => indirect_meets h levels m) fun _ => ?_
  refine (noFields_meets m).bind fun _ _ => meets_pure ?_
  exact Value.typed_of_fitsKind hw (by simp [Value.fitsKind, hk]) rfl rfl fun _ => rfl

theorem bytesValue_meets (hk : f.kind = .bytes) :
    Meets faults (r.bytesValue levels f m mode) (Typed r.schema f mode) := by
  unfold bytesValue
  refine meets_ite (fun _ => indirect_meets h levels m) fun _ => ?_
  refine (noFields_meets m).bind fun _ _ => ?_
  split
  · refine meets_pure ?_
    exact Value.typed_of_fitsKind hw (by simp [Value.fitsKind, hk]) rfl rfl fun _ => rfl
  · exact mismatch_meets f _

theorem enumValue_meets (hk : f.kind = .enum) :
    Meets faults (r.enumValue levels f m mode) (Typed r.schema f mode) := by
  unfold enumValue
  refine meets_ite (fun _ => ?_) fun _ => mismatch_meets f _
  split
  · refine (noFields_meets m).bind fun _ _ => meets_pure ?_
    exact Value.typed_of_fitsKind hw (by simp [Value.fitsKind, hk]) rfl rfl fun _ => rfl
  · exact meets_ite (fun _ => indirect_meets h levels m) fun _ => meets_fail _ _

end

/-! Moments and durations are literals of their own types only. -/

theorem typed_timestamp (hw : r.schema.wellKnownOf? f = some .timestamp) (t : Time.Timestamp) :
    Typed r.schema f mode (.value (.timestamp t)) :=
  ⟨by simp [Expr.wellTyped, Value.conformsTo, Value.partsTyped, hw], rfl, fun _ => rfl⟩

theorem typed_duration (hw : r.schema.wellKnownOf? f = some .duration) (d : Time.Duration) :
    Typed r.schema f mode (.value (.duration d)) :=
  ⟨by simp [Expr.wellTyped, Value.conformsTo, Value.partsTyped, hw], rfl, fun _ => rfl⟩

theorem timestampValue_meets (h : r.Ready faults) (hw : r.schema.wellKnownOf? f = some .timestamp)
    (levels : Nat) (m : Member) :
    Meets faults (r.timestampValue levels f m mode) (Typed r.schema f mode) := by
  unfold timestampValue
  refine meets_ite (fun _ => ?_) fun _ => indirectOnly_meets h levels m
  refine (noFields_meets m).bind fun _ _ => ?_
  split
  · exact meets_pure (typed_timestamp hw _)
  · exact meets_fail _ _

theorem durationValue_meets (h : r.Ready faults) (hw : r.schema.wellKnownOf? f = some .duration)
    (levels : Nat) (m : Member) :
    Meets faults (r.durationValue levels f m mode) (Typed r.schema f mode) := by
  unfold durationValue
  refine meets_ite (fun _ => ?_) fun _ => indirectOnly_meets h levels m
  refine (noFields_meets m).bind fun _ _ => ?_
  split
  · exact meets_pure (typed_duration hw _)
  · exact meets_fail _ _

theorem memberValue_meets (h : r.Ready faults) (hmode : mode.optional = false) (levels : Nat)
    (m : Member) : Meets faults (r.memberValue levels f m mode) (Typed r.schema f mode) := by
  unfold memberValue
  refine meets_ite (fun _ => nullValue_meets hmode m) fun _ => ?_
  refine meets_ite (fun _ => indirectOnly_meets h levels m) fun _ => ?_
  split
  · exact timestampValue_meets h ‹_› levels m
  · exact durationValue_meets h ‹_› levels m
  · exact indirectOnly_meets h levels m
  · rename_i hw
    split
    · exact boolValue_meets h hw levels m ‹_›
    · exact stringValue_meets h hw levels m ‹_›
    · exact bytesValue_meets h hw levels m ‹_›
    · exact enumValue_meets h hw levels m ‹_›
    · exact indirectOnly_meets h levels m
    · exact indirectOnly_meets h levels m
    · exact numericValue_meets h hw levels m

/-! ## Calls -/

/-- What the levels below are known to give. -/
structure InnerMeets (faults : Prop) (r : Resolver) (inner : Inner) : Prop where
  comparable : ∀ f c mode, (¬faults → r.schema.Sound f) → mode.optional = false →
    Meets faults (inner.comparable f c mode) (Typed r.schema f mode)
  group : ∀ f e mode, (¬faults → r.schema.Sound f) → mode.optional = false →
    Meets faults (inner.group f e mode) (Typed r.schema f mode)
  dynamic : ∀ c mode, Meets faults (inner.dynamic c mode) (Dynamic mode)

variable {inner : Inner}

theorem argValue_meets (hi : InnerMeets faults r inner) (hf : ¬faults → r.schema.Sound f)
    (hmode : mode.optional = false) (arg : Arg) :
    Meets faults (argValue inner f arg mode) (Typed r.schema f mode) := by
  cases arg with
  | composite c => exact hi.group f c.expression mode hf hmode
  | comparable c => exact hi.comparable f c mode hf hmode

end Resolver

namespace Signature

/-- Where the number of arguments is accepted, every argument has a parameter. -/
theorem parameter?_ne_none {s : Signature} {count index : Nat} (h : s.acceptsArity count = true)
    (hi : index < count) : s.parameter? index ≠ none := by
  unfold parameter?
  split
  · exact Option.some_ne_none _
  · rename_i hnone
    have hlen := List.getElem?_eq_none_iff.1 hnone
    unfold acceptsArity at h
    split at h
    · rename_i hv
      simp only [Bool.and_eq_true, Bool.not_eq_true', List.isEmpty_eq_false_iff] at hv
      rw [if_pos hv.1]
      exact fun hlast => hv.2 (List.getLast?_eq_none_iff.1 hlast)
    · have hcount := eq_of_beq h
      omega

theorem mem_of_parameter? {s : Signature} {index : Nat} {f : Field}
    (h : s.parameter? index = some f) : f ∈ s.parameters := by
  unfold parameter? at h
  split at h
  · rename_i hsome
    cases h
    exact List.mem_of_getElem? hsome
  · split at h
    · exact List.mem_of_getLast? h
    · cases h

end Signature

/-- A call of a function, its arguments without comparisons. -/
def Signature.Calls (s : Signature) (e : Expr) : Prop :=
  ∃ args, e = .call s.package s.name args s.complexity ∧ ∀ a ∈ args, a.comparisons = []

namespace Resolver

variable {faults : Prop} {r : Resolver} {f : Field} {mode : ValueMode} {inner : Inner}

theorem callArgs_meets (hi : InnerMeets faults r inner) {s : Signature}
    (hs : ¬faults → s.Sound r.schema) (index : Nat) (args : List Arg)
    (hp : ∀ i < index + args.length, s.parameter? i ≠ none) :
    Meets faults (callArgs inner s mode index args) fun es => ∀ e ∈ es, e.comparisons = [] := by
  induction args generalizing index with
  | nil => exact meets_pure (by simp)
  | cons arg args ih =>
    rw [callArgs]
    rw [List.length_cons] at hp
    split
    · rename_i hnone
      exact absurd hnone (hp index (by omega))
    · rename_i param hparam
      have hsound := fun hfault => hs hfault param (.inl (Signature.mem_of_parameter? hparam))
      refine (argValue_meets hi hsound rfl arg).bind fun e he => ?_
      refine (ih (index + 1) fun i hlt => hp i (by omega)).bind fun es hes => ?_
      exact meets_pure (List.forall_mem_cons.2 ⟨he.comparisons, hes⟩)

theorem plainCall_meets (h : r.Ready faults) (hi : InnerMeets faults r inner) (c : Call)
    (name : String) (target : Option Field) :
    Meets faults (r.plainCall inner c name target mode) fun e =>
      ∃ s, r.options.function? name = some s ∧ s.Calls e := by
  unfold plainCall
  split
  · exact meets_fail _ _
  · rename_i s hs
    refine meets_ite (fun _ => meets_fail _ _) fun harity => ?_
    rw [Bool.not_eq_true', Bool.not_eq_false] at harity
    refine (callArgs_meets hi (fun hfault => (h.sound hfault).functions name s hs) 0 c.args
      fun i hlt => Signature.parameter?_ne_none harity (by omega)).bind fun es hes => ?_
    dsimp only
    split
    · exact meets_ite (fun _ => meets_pure ⟨s, hs, es, rfl, hes⟩) fun _ => meets_fail _ _
    · exact meets_pure ⟨s, hs, es, rfl, hes⟩

theorem call_meets (h : r.Ready faults) (hi : InnerMeets faults r inner) (c : Call)
    (target : Option Field) :
    Meets faults (r.call inner c target mode) fun e =>
      ∃ s, r.options.function? (joinPath .unquoted c.name) = some s ∧ s.Calls e := by
  unfold call
  rw [h.hooks.callHooks]
  exact plainCall_meets h hi c _ target

/-- A call takes from the record, so it stands for a value only where that is allowed. -/
theorem callValue_meets (h : r.Ready faults) (hi : InnerMeets faults r inner) (c : Call)
    (target : Option Field) :
    Meets faults (r.callValue inner c target mode) fun e =>
      mode.allowIndirect = true ∧ ∃ s : Signature, s.Calls e := by
  unfold callValue
  refine (call_meets h hi c target).bind fun e he => ?_
  obtain ⟨s, -, hs⟩ := he
  refine meets_ite (fun _ => meets_fail _ _) fun hallowed => meets_pure ⟨?_, s, hs⟩
  obtain ⟨args, rfl, -⟩ := hs
  simpa [Expr.isIndirect] using hallowed

end Resolver

namespace Signature.Calls

variable {s : Signature} {e : Expr} {mode : ValueMode}

theorem comparisons (h : s.Calls e) : e.comparisons = [] := by
  obtain ⟨args, rfl, hargs⟩ := h
  exact itemComparisons_eq_nil hargs

theorem typed (h : s.Calls e) (hmode : mode.allowIndirect = true) (schema : Schema) (f : Field) :
    Typed schema f mode e := by
  obtain ⟨args, rfl, hargs⟩ := h
  exact .call hmode _ _ _ hargs

theorem dynamic (h : s.Calls e) (hmode : mode.allowIndirect = true) : Dynamic mode e := by
  obtain ⟨args, rfl, hargs⟩ := h
  exact ⟨rfl, itemComparisons_eq_nil hargs, fun hdirect => by cases hmode.symm.trans hdirect⟩

end Signature.Calls

end ListQuery.Filter
