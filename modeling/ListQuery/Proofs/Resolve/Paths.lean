/-
What resolution relies on, and its first pieces: scalar literals are of the kind of their field, and
a path gives a selector together with the field at its end.
-/
import ListQuery.Filter.Resolve.Select
import ListQuery.Proofs.Resolve.Meets
import ListQuery.Proofs.Resolve.Typing

namespace ListQuery.Filter

open Resolve

/-- A function over fields that are sound. -/
def Signature.Sound (schema : Schema) (s : Signature) : Prop :=
  ∀ f, f ∈ s.parameters ∨ s.result = some f → schema.Sound f

/-- What resolution relies on to be free of faults: the schema has been checked, the root is one of
its messages, and functions are over sound fields. -/
structure Resolver.Sound (r : Resolver) : Prop where
  checked : r.schema.Checked
  root : r.root ∈ r.schema.messages
  functions : ∀ name s, r.options.function? name = some s → s.Sound r.schema

/-- Options that leave all of the resolution to the resolver. -/
structure ResolverOptions.HookFree (o : ResolverOptions) : Prop where
  fieldHooks : o.fieldHooks = []
  callHooks : o.callHooks = []

/-- A resolver without hooks that is sound unless faults are let pass. -/
structure Resolver.Ready (r : Resolver) (faults : Prop) : Prop where
  hooks : r.options.HookFree
  sound : ¬faults → r.Sound

namespace Resolver

variable {faults : Prop} {r : Resolver}

/-- Fields of messages of the schema are sound. -/
theorem Ready.field (h : r.Ready faults) {m : Message} (hm : ¬faults → m ∈ r.schema.messages)
    {name : String} {f : Field} (hf : m.field? name = some f) : ¬faults → r.schema.Sound f :=
  fun hfault => (h.sound hfault).checked.sound m (hm hfault) f (Message.mem_of_field? hf)

theorem mismatch_meets {α : Type} {Q : α → Prop} (f : Field) (l : Leaf) :
    Meets faults (mismatch f l) Q :=
  meets_fail _ _

/-- An integer is of the field's kind, which is no message. -/
theorem integerLiteral_meets (s : Schema) (f : Field) (l : Leaf) :
    Meets faults (integerLiteral f l) fun k => k.toValue.fitsKind s f = true := by
  unfold integerLiteral
  refine meets_ite (fun _ => mismatch_meets f l) fun _ => ?_
  dsimp only
  split
  · exact meets_fail _ _
  · refine meets_ite (fun hs => ?_) fun _ => meets_ite (fun hu => ?_) fun _ => mismatch_meets f l
    · exact meets_ite (fun _ => meets_pure hs) fun _ => meets_fail _ _
    · exact meets_ite (fun _ => meets_pure hu) fun _ => meets_fail _ _

theorem not_isMessage_of_isSigned_or {k : FieldKind}
    (h : (k.isSigned || k.isUnsigned) = true) : k.isMessage = false := by
  cases k <;> first | rfl | cases h

theorem mapKey_meets (s : Schema) (key : Field) (l : Leaf) :
    Meets faults (mapKey key l) fun k => k.toValue.conformsTo s key = true := by
  unfold mapKey
  refine meets_ite (fun hk => ?_) fun _ => meets_ite (fun hk => ?_) fun _ =>
    meets_ite (fun hk => ?_) fun _ => mismatch_meets key l
  · refine meets_pure (Value.conformsTo_of_fitsKind (wellKnownOf?_eq_none ?_) ?_)
    · rw [hk]; rfl
    · simp [MapKey.toValue, Value.fitsKind, hk]
  · refine meets_pure (Value.conformsTo_of_fitsKind (wellKnownOf?_eq_none ?_) ?_)
    · rw [hk.1]; rfl
    · simp [MapKey.toValue, Value.fitsKind, hk.1]
  · exact (integerLiteral_meets s key l).mono fun k h =>
      Value.conformsTo_of_fitsKind (wellKnownOf?_eq_none (not_isMessage_of_isSigned_or hk)) h

theorem floatLiteral_meets (f : Field) (l : Leaf) :
    Meets faults (floatLiteral f l) fun _ => True := by
  unfold floatLiteral
  split
  · exact meets_ite (fun _ => mismatch_meets f l) fun _ =>
      meets_ite (fun _ => meets_fail _ _) fun _ => meets_pure trivial
  · exact mismatch_meets f l

/-! ## Paths -/

theorem select_meets (h : r.Ready faults) (levels : Nat) (m : Message) (path : List Leaf)
    (hm : ¬faults → m ∈ r.schema.messages) (hpath : path ≠ []) :
    Meets faults (r.select levels m path) fun x =>
      fieldAt? r.schema m x.1 = some x.2 ∧ (¬faults → r.schema.Sound x.2) := by
  -- each segment takes a level, and the rest of the path starts in another message
  induction levels generalizing m path with
  | zero =>
    cases path with
    | nil => exact absurd rfl hpath
    | cons leaf rest => rw [select]; exact meets_fail _ _
  | succ levels ih =>
    cases path with
    | nil => exact absurd rfl hpath
    | cons leaf rest =>
      rw [select]
      refine meets_ite (fun _ => meets_fail _ _) fun _ => ?_
      split
      · exact meets_fail _ _
      · rename_i field hfield
        have hsound := h.field hm hfield
        split
        · exact meets_pure ⟨fieldAt?_ofField hfield [], hsound⟩
        · rename_i next remaining
          refine meets_ite (fun hmap => ?_) fun hmap => ?_
          · split
            · rename_i hkey
              exact meets_throw (fun hfault => (hsound hfault).mapKey_ne_none hmap hkey) _
            · rename_i hvalue
              exact meets_throw (fun hfault => (hsound hfault).mapValue_ne_none hmap hvalue) _
            · rename_i key value hkey hvalue
              have hvsound := fun hfault => (hsound hfault).of_mapValue hmap hvalue
              refine (mapKey_meets r.schema key next).bind fun k _ => ?_
              split
              · refine meets_pure ⟨?_, hvsound⟩
                rw [fieldAt?_ofField hfield, stepsTo?_key hmap hvalue]
                rfl
              · split
                · exact meets_fail _ _
                · rename_i inner hinner
                  refine (ih inner _ (fun _ => Schema.mem_of_messageOf? hinner)
                    (List.cons_ne_nil _ _)).bind fun x hx => meets_pure ⟨?_, hx.2⟩
                  rw [fieldAt?_ofField hfield, stepsTo?_key hmap hvalue, stepsTo?_field hinner]
                  exact hx.1
          · split
            · rename_i inner hinner
              refine (ih inner _ (fun _ => Schema.mem_of_messageOf? hinner)
                (List.cons_ne_nil _ _)).bind fun x hx => meets_pure ⟨?_, hx.2⟩
              rw [stepInto, fieldAt?_ofField hfield, stepsTo?_field hinner]
              exact hx.1
            · exact meets_fail _ _

end Resolver

end ListQuery.Filter
