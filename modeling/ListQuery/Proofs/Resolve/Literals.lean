/-
Struct literals, and with them all values: the three functions that go down a level are shown to
give values of their fields by induction on the levels left.
-/
import ListQuery.Proofs.Resolve.Values

namespace ListQuery.Filter

open Resolve

namespace Resolver

variable {faults : Prop} {r : Resolver} {f : Field} {mode : ValueMode} {inner : Inner}

theorem checkStructName_meets (s : StructLiteral) (expected : String) (optional : Bool) :
    Meets faults (checkStructName s expected optional) fun _ => True := by
  unfold checkStructName
  refine meets_ite (fun _ => ?_) fun _ => ?_
  · exact meets_ite (fun _ => meets_pure trivial) fun _ => meets_fail _ _
  · exact meets_ite (fun _ => meets_pure trivial) fun _ => meets_fail _ _

theorem dynamicEntries_meets (hi : InnerMeets faults r inner) (seen : List String)
    (entries : List StructEntry) :
    Meets faults (dynamicEntries inner mode seen entries) fun es =>
      entriesDynamic es = true ∧ entryComparisons es = [] ∧
        (mode.allowIndirect = false → entryReads es = []) := by
  induction entries generalizing seen with
  | nil => exact meets_pure ⟨rfl, rfl, fun _ => rfl⟩
  | cons entry entries ih =>
    rw [dynamicEntries]
    refine meets_ite (fun _ => meets_fail _ _) fun _ => ?_
    refine (hi.dynamic entry.value mode).bind fun e he => ?_
    refine (ih _).bind fun es hes => meets_pure ⟨?_, ?_, fun hmode => ?_⟩
    · simp [entriesDynamic, Expr.isText, he.isDynamic, hes.1]
    · simp [entryComparisons, Expr.comparisons, Value.comparisons, he.comparisons, hes.2.1]
    · simp [entryReads, Expr.reads, Value.reads, he.direct hmode, hes.2.2 hmode]

theorem dynamicMap_meets (hi : InnerMeets faults r inner) (s : StructLiteral) :
    Meets faults (dynamicMap inner s mode) fun e =>
      ∃ es, e = .map es ∧ entriesDynamic es = true ∧ entryComparisons es = [] ∧
        (mode.allowIndirect = false → entryReads es = []) := by
  unfold dynamicMap
  refine (checkStructName_meets s _ _).bind fun _ _ => ?_
  exact (dynamicEntries_meets hi [] s.entries).bind fun es hes => meets_pure ⟨es, rfl, hes⟩

theorem instantEntries_meets (h : r.Ready faults) (hi : InnerMeets faults r inner) (w : WellKnown)
    {message : Message} (hm : ¬faults → message ∈ r.schema.messages)
    (hfields : ¬faults → ∀ name, name = "seconds" ∨ name = "nanos" → message.field? name ≠ none)
    (seconds nanos : Option Int) (entries : List StructEntry) :
    Meets faults (instantEntries inner w message seconds nanos entries) fun _ => True := by
  induction entries generalizing seconds nanos with
  | nil => exact meets_pure trivial
  | cons entry entries ih =>
    rw [instantEntries]
    refine meets_ite (fun _ => meets_fail _ _) fun hname => ?_
    refine meets_ite (fun _ => meets_fail _ _) fun _ => ?_
    split
    · rename_i hnone
      refine meets_throw (fun hfault => hfields hfault _ ?_ hnone) _
      rwa [Decidable.not_and_iff_not_or_not, Decidable.not_not, Decidable.not_not] at hname
    · rename_i sub hsub
      refine (hi.comparable sub entry.value .direct (h.field hm hsub) rfl).bind fun e _ => ?_
      split
      · exact meets_ite (fun _ => ih _ _) fun _ => ih _ _
      · exact meets_fail _ _

theorem instant_meets (h : r.Ready faults) (hi : InnerMeets faults r inner) {w : WellKnown}
    (hw : w = .timestamp ∨ w = .duration) (hf : r.schema.wellKnownOf? f = some w)
    (s : StructLiteral) : Meets faults (r.instant inner f s w) fun _ => True := by
  obtain ⟨message, hmessage, hwell⟩ := Schema.exists_of_wellKnownOf? hf
  obtain ⟨-, -, t, -, ht⟩ := Schema.exists_of_messageOf? hmessage
  unfold instant
  refine (checkStructName_meets s _ _).bind fun _ _ => ?_
  rw [hmessage]
  exact instantEntries_meets h hi w (fun _ => Schema.mem_of_message? ht)
    (fun hfault => (h.sound hfault).checked.instant w hw t message ht hwell) none none s.entries

theorem timestampStruct_meets (h : r.Ready faults) (hi : InnerMeets faults r inner)
    (hw : r.schema.wellKnownOf? f = some .timestamp) (s : StructLiteral) :
    Meets faults (r.timestampStruct inner f s) (Typed r.schema f mode) := by
  unfold timestampStruct
  refine (instant_meets h hi (.inl rfl) hw s).bind fun x _ => ?_
  dsimp only
  split
  · exact meets_pure (typed_timestamp hw _)
  · exact meets_fail _ _

theorem durationStruct_meets (h : r.Ready faults) (hi : InnerMeets faults r inner)
    (hw : r.schema.wellKnownOf? f = some .duration) (s : StructLiteral) :
    Meets faults (r.durationStruct inner f s) (Typed r.schema f mode) := by
  unfold durationStruct
  refine (instant_meets h hi (.inr rfl) hw s).bind fun x _ => ?_
  dsimp only
  split
  · exact meets_pure (typed_duration hw _)
  · exact meets_fail _ _

theorem messageEntries_meets (h : r.Ready faults) (hi : InnerMeets faults r inner)
    {message : Message} (hm : ¬faults → message ∈ r.schema.messages) (seen : List String)
    (entries : List StructEntry) :
    Meets faults (messageEntries inner message mode seen entries) fun es =>
      namedTyped r.schema (some message) es = true ∧ fieldComparisons es = [] ∧
        (mode.allowIndirect = false → fieldReads es = []) := by
  induction entries generalizing seen with
  | nil => exact meets_pure ⟨rfl, rfl, fun _ => rfl⟩
  | cons entry entries ih =>
    rw [messageEntries]
    split
    · exact meets_fail _ _
    · rename_i sub hsub
      refine meets_ite (fun _ => meets_fail _ _) fun _ => ?_
      refine (hi.comparable sub entry.value mode.required (h.field hm hsub) rfl).bind
        fun e he => ?_
      refine (ih _).bind fun es hes => meets_pure ⟨?_, ?_, fun hmode => ?_⟩
      · simp [namedTyped, hsub, he.wellTyped, hes.1]
      · simp [fieldComparisons, he.comparisons, hes.2.1]
      · rw [fieldReads, he.direct hmode, hes.2.2 hmode, List.append_nil]

theorem messageStruct_meets (h : r.Ready faults) (hi : InnerMeets faults r inner)
    (hf : ¬faults → r.schema.Sound f) (hmap : f.isMap = false) (hk : f.kind.isMessage = true)
    (hw : r.schema.wellKnownOf? f = none) (s : StructLiteral) :
    Meets faults (r.messageStruct inner f s mode) (Typed r.schema f mode) := by
  unfold messageStruct
  split
  · rename_i hnone
    exact meets_throw (fun hfault => (hf hfault).message hmap hk hnone) _
  · rename_i message hmessage
    obtain ⟨-, -, t, -, ht⟩ := Schema.exists_of_messageOf? hmessage
    refine (checkStructName_meets s _ _).bind fun _ _ => ?_
    refine (messageEntries_meets h hi (fun _ => Schema.mem_of_message? ht) [] s.entries).bind
      fun es hes => meets_pure (Value.typed_of_fitsKind hw ?_ ?_ hes.2.1 hes.2.2)
    · simp [Value.fitsKind, hmessage]
    -- the name that the value carries leads back to the message that its fields were checked with
    · rw [Value.partsTyped, Schema.fullName_of_message? ht, ht]
      exact hes.1

theorem mapEntries_meets (hi : InnerMeets faults r inner) (key : Field) {value : Field}
    (hv : ¬faults → r.schema.Sound value) (hmode : mode.optional = false) (seen : List MapKey)
    (entries : List StructEntry) :
    Meets faults (mapEntries inner key value mode seen entries) fun es =>
      entriesTyped r.schema key value es = true ∧ entryComparisons es = [] ∧
        (mode.allowIndirect = false → entryReads es = []) := by
  induction entries generalizing seen with
  | nil => exact meets_pure ⟨rfl, rfl, fun _ => rfl⟩
  | cons entry entries ih =>
    rw [mapEntries]
    refine (mapKey_meets r.schema key entry.name).bind fun k hk => ?_
    refine meets_ite (fun _ => meets_fail _ _) fun _ => ?_
    refine (hi.comparable value entry.value mode hv hmode).bind fun e he => ?_
    refine (ih _).bind fun es hes => meets_pure ⟨?_, ?_, fun hmode => ?_⟩
    · simp [entriesTyped, Expr.isLiteralOf, hk, he.wellTyped, hes.1]
    · have hkey : k.toValue.comparisons = [] := by cases k <;> rfl
      simp [entryComparisons, Expr.comparisons, hkey, he.comparisons, hes.2.1]
    · have hkey : k.toValue.reads = [] := by cases k <;> rfl
      simp [entryReads, Expr.reads, hkey, he.direct hmode, hes.2.2 hmode]

theorem mapStruct_meets (hi : InnerMeets faults r inner) (hf : ¬faults → r.schema.Sound f)
    (hmode : mode.optional = false) (hmap : f.isMap = true) (s : StructLiteral) :
    Meets faults (mapStruct inner f s mode) (Typed r.schema f mode) := by
  unfold mapStruct
  refine meets_ite (fun _ => meets_fail _ _) fun _ => ?_
  split
  · rename_i hkey
    exact meets_throw (fun hfault => (hf hfault).mapKey_ne_none hmap hkey) _
  · rename_i hvalue
    exact meets_throw (fun hfault => (hf hfault).mapValue_ne_none hmap hvalue) _
  · rename_i key value hkey hvalue
    have hv := fun hfault => (hf hfault).of_mapValue hmap hvalue
    refine (mapEntries_meets hi key hv hmode [] s.entries).bind fun es hes =>
      meets_pure ⟨?_, hes.2.1, hes.2.2⟩
    simp [Expr.wellTyped, hmap, hkey, hvalue, hes.1]

theorem structValue_meets (h : r.Ready faults) (hi : InnerMeets faults r inner)
    (hf : ¬faults → r.schema.Sound f) (hmode : mode.optional = false) (s : StructLiteral) :
    Meets faults (r.structValue inner f s mode) (Typed r.schema f mode) := by
  unfold structValue
  refine meets_ite (fun hmap => mapStruct_meets hi hf hmode hmap s) fun hmap => ?_
  rw [Bool.not_eq_true] at hmap
  split
  · exact timestampStruct_meets h hi ‹_› s
  · exact durationStruct_meets h hi ‹_› s
  · rename_i hw
    refine (dynamicMap_meets hi s).mono fun e he => ?_
    obtain ⟨es, rfl, hes, hc, hd⟩ := he
    exact ⟨by simp [Expr.wellTyped, hmap, hw, hes], hc, hd⟩
  · exact (hi.dynamic _ mode).mono fun e he => he.typed ‹_›
  · rename_i hw
    exact meets_ite (fun hk => messageStruct_meets h hi hf hmap hk hw s) fun _ => meets_fail _ _

/-! ## All values -/

theorem comparableBody_meets (h : r.Ready faults) (hi : InnerMeets faults r inner)
    (hf : ¬faults → r.schema.Sound f) (hmode : mode.optional = false) (levels : Nat)
    (c : Comparable) :
    Meets faults (r.comparableBody levels inner f c mode) (Typed r.schema f mode) := by
  cases c with
  | array a =>
    refine meets_ite (fun _ => meets_fail _ _) fun _ => ?_
    refine (meets_mapM fun e _ => hi.comparable f e mode hf hmode).bind fun es hes => ?_
    exact meets_pure (.array hes)
  | call c =>
    exact (callValue_meets h hi c (some f)).mono fun e ⟨hmode, s, hs⟩ => hs.typed hmode _ f
  | struct s => exact structValue_meets h hi hf hmode s
  | member m =>
    refine meets_ite (fun hw => ?_) fun _ => memberValue_meets h hmode levels m
    exact (hi.dynamic _ mode).mono fun e he => he.typed hw

theorem groupBody_meets (hi : InnerMeets faults r inner) (hf : ¬faults → r.schema.Sound f)
    (hmode : mode.optional = false) (e : Expression) :
    Meets faults (groupBody inner f e mode) (Typed r.schema f mode) := by
  unfold groupBody
  refine Meets.map _ (meets_mapM fun s _ => ?_) fun es => .conjunction
  refine Meets.map _ (meets_mapM fun x _ => ?_) fun es => .conjunction
  refine Meets.map _ (meets_mapM fun t _ => ?_) fun es => .disjunction
  have hsigned (e : Expr) (he : Typed r.schema f mode e) : Meets faults
      (pure (if t.unary.isSome = true then .not e else e)) (Typed r.schema f mode) := by
    refine meets_pure ?_
    split
    · exact he.not
    · exact he
  dsimp only
  split
  · exact (hi.group f _ mode hf hmode).bind hsigned
  · split
    · exact (meets_fail _ _).bind hsigned
    · exact (hi.comparable f _ mode hf hmode).bind hsigned

/-- What stands for any value is a scalar of one of the four kinds. -/
theorem dynamicLeaf_dynamic (l : Leaf) : Dynamic mode (.value (dynamicLeaf l)) := by
  unfold dynamicLeaf
  split
  · exact ⟨rfl, rfl, fun _ => rfl⟩
  · exact ⟨rfl, rfl, fun _ => rfl⟩
  · split <;> exact ⟨rfl, rfl, fun _ => rfl⟩
  · split <;> exact ⟨rfl, rfl, fun _ => rfl⟩
  · split <;> exact ⟨rfl, rfl, fun _ => rfl⟩
  · split <;> exact ⟨rfl, rfl, fun _ => rfl⟩
  · exact ⟨rfl, rfl, fun _ => rfl⟩

theorem dynamicBody_meets (h : r.Ready faults) (hi : InnerMeets faults r inner) (c : Comparable) :
    Meets faults (r.dynamicBody inner c mode) (Dynamic mode) := by
  cases c with
  | member m => exact (noFields_meets m).bind fun _ _ => meets_pure (dynamicLeaf_dynamic m.value)
  | struct s =>
    refine (dynamicMap_meets hi s).mono fun e he => ?_
    obtain ⟨es, rfl, hes, hc, hd⟩ := he
    exact ⟨hes, hc, hd⟩
  | array a =>
    refine (meets_mapM fun e _ => hi.dynamic e mode).bind fun es hes => meets_pure ⟨?_, ?_, ?_⟩
    · exact allDynamic_iff.2 fun e he => (hes e he).isDynamic
    · exact itemComparisons_eq_nil fun e he => (hes e he).comparisons
    · exact fun hmode => itemReads_eq_nil fun e he => (hes e he).direct hmode
  | call c => exact (callValue_meets h hi c none).mono fun e ⟨hmode, s, hs⟩ => hs.dynamic hmode

/-- All levels of nesting give values of their fields. -/
theorem innerAt_meets (h : r.Ready faults) (levels : Nat) :
    InnerMeets faults r (r.innerAt levels) := by
  induction levels with
  | zero =>
    refine ⟨fun f c mode _ _ => ?_, fun f e mode _ _ => ?_, fun c mode => ?_⟩
    · simp only [innerAt, comparableValue]
      exact meets_fail _ _
    · simp only [innerAt, groupValue]
      exact meets_fail _ _
    · simp only [innerAt, dynamicValue]
      exact meets_fail _ _
  | succ levels ih =>
    refine ⟨fun f c mode hf hmode => ?_, fun f e mode hf hmode => ?_, fun c mode => ?_⟩
    · simp only [innerAt, comparableValue]
      exact comparableBody_meets h ih hf hmode levels c
    · simp only [innerAt, groupValue]
      exact groupBody_meets ih hf hmode e
    · simp only [innerAt, dynamicValue]
      exact dynamicBody_meets h ih c

end Resolver

end ListQuery.Filter
