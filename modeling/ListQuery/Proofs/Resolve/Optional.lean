/-
How far the leave for null at a place for a value goes. It goes no further than the place in message
literals, in literals of a moment or a duration and in arguments, and in maps of any values null is
always accepted. Map literals hand it on to the values of their entries. So a literal is read alike
with and without the leave, unless a null is refused somewhere below its maps (`RefusedNull`): that
literal has no value without the leave. Main statement: `Resolver.parseValue_optional`.

Both runs are followed together, the one with the leave first.
-/
import ListQuery.Proofs.Resolve.Filters
import ListQuery.Proofs.Resolve.Levels

namespace ListQuery.Filter

/-- There is a null at a place that does not accept it, in the literal itself or further down in
arrays and maps. -/
inductive RefusedNull (schema : Schema) : Field → Comparable → Prop
  | null {f : Field} {m : Member} (hkind : m.value.kind = .null) (hnullable : f.nullable = false)
    (hvalue : schema.wellKnownOf? f ≠ some .value) : RefusedNull schema f (.member m)
  | element {f : Field} {a : ArrayLiteral} {c : Comparable} (hmem : c ∈ a.elements)
    (hc : RefusedNull schema f c) : RefusedNull schema f (.array a)
  | entry {f value : Field} {s : StructLiteral} {entry : StructEntry} (hmap : f.isMap = true)
    (hfield : f.mapValue = some value) (hmem : entry ∈ s.entries)
    (hc : RefusedNull schema value entry.value) : RefusedNull schema f (.struct s)

section RefusedNull

variable {schema : Schema} {f value : Field}

theorem refusedNull_member {m : Member} :
    RefusedNull schema f (.member m) ↔
      m.value.kind = .null ∧ f.nullable = false ∧ schema.wellKnownOf? f ≠ some .value := by
  constructor
  · rintro ⟨hkind, hnullable, hvalue⟩
    exact ⟨hkind, hnullable, hvalue⟩
  · rintro ⟨hkind, hnullable, hvalue⟩
    exact .null hkind hnullable hvalue

theorem refusedNull_array {a : ArrayLiteral} :
    RefusedNull schema f (.array a) ↔ ∃ c ∈ a.elements, RefusedNull schema f c := by
  constructor
  · rintro (_ | ⟨hmem, hc⟩)
    exact ⟨_, hmem, hc⟩
  · rintro ⟨c, hmem, hc⟩
    exact .element hmem hc

@[simp] theorem not_refusedNull_call {c : Call} : ¬RefusedNull schema f (.call c) := nofun

/-- A literal that is not for a map refuses nothing on account of the place it stands at. -/
theorem not_refusedNull_struct {s : StructLiteral} (hmap : f.isMap = false) :
    ¬RefusedNull schema f (.struct s) := by
  rintro (_ | _ | ⟨h, -, -, -⟩)
  rw [hmap] at h
  cases h

theorem refusedNull_map {s : StructLiteral} (hmap : f.isMap = true)
    (hfield : f.mapValue = some value) :
    RefusedNull schema f (.struct s) ↔ ∃ entry ∈ s.entries, RefusedNull schema value entry.value := by
  constructor
  · rintro (_ | _ | ⟨-, h, hmem, hc⟩)
    rw [hfield] at h
    cases h
    exact ⟨_, hmem, hc⟩
  · rintro ⟨entry, hmem, hc⟩
    exact .entry hmap hfield hmem hc

end RefusedNull

namespace Resolve

variable {α β : Type} {p q : Prop}

/-- A step that gives no value. -/
def Fruitless (x : Resolve α) : Prop := ∀ s a s', x s ≠ .ok a s'

theorem Fruitless.bind {x : Resolve α} (hx : Fruitless x) (f : α → Resolve β) :
    Fruitless (x >>= f) := by
  intro s b s' h
  obtain ⟨a, s₁, ha, -⟩ := bind_ok.1 h
  exact hx s a s₁ ha

theorem fruitless_bind (x : Resolve α) {f : α → Resolve β} (hf : ∀ a, Fruitless (f a)) :
    Fruitless (x >>= f) := by
  intro s b s' h
  obtain ⟨a, s₁, -, hb⟩ := bind_ok.1 h
  exact hf a s₁ b s' hb

/-- The second step does the same as the first where nothing is refused, and gives no value where
something is. -/
structure Refuses (refused : Prop) (x y : Resolve α) : Prop where
  same : ¬refused → x = y
  never : refused → Fruitless y

theorem Refuses.of_eq {x y : Resolve α} (h : x = y) : Refuses False x y :=
  ⟨fun _ => h, fun hrefused => hrefused.elim⟩

/-- Two steps that fail in the same way, whether something is refused or not. -/
theorem refuses_fail (pos : Position) (cause : ValueCause) :
    Refuses p (fail pos cause : Resolve α) (fail pos cause) :=
  ⟨fun _ => rfl, fun _ _ _ _ h => by cases h⟩

theorem refuses_throw (e : FilterError) : Refuses p (throw e : Resolve α) (throw e) :=
  ⟨fun _ => rfl, fun _ _ _ _ h => by cases h⟩

theorem Refuses.congr {x y : Resolve α} (h : Refuses p x y) (hiff : q ↔ p) : Refuses q x y :=
  ⟨fun hq => h.same fun hp => hq (hiff.2 hp), fun hq => h.never (hiff.1 hq)⟩

theorem Refuses.bind {x y : Resolve α} {f g : α → Resolve β} (hx : Refuses p x y)
    (hf : ∀ a, Refuses q (f a) (g a)) : Refuses (p ∨ q) (x >>= f) (y >>= g) where
  same h := by
    rw [hx.same fun hp => h (.inl hp), funext fun a => (hf a).same fun hq => h (.inr hq)]
  never h := by
    rcases h with hp | hq
    · exact (hx.never hp).bind g
    · exact fruitless_bind y fun a => (hf a).never hq

/-- What is done first refuses nothing. -/
theorem refuses_after (x : Resolve α) {f g : α → Resolve β} (hf : ∀ a, Refuses p (f a) (g a)) :
    Refuses p (x >>= f) (x >>= g) :=
  ((Refuses.of_eq rfl).bind hf).congr (by simp)

/-- What is done with the value refuses nothing more. -/
theorem Refuses.map {x y : Resolve α} (g : α → β) (hx : Refuses p x y) :
    Refuses p (do return g (← x)) (do return g (← y)) :=
  (hx.bind fun a => .of_eq (rfl : pure (g a) = pure (g a))).congr (by simp)

theorem refuses_mapM {γ : Type} {f g : γ → Resolve α} {refused : γ → Prop}
    (h : ∀ x, Refuses (refused x) (f x) (g x)) (xs : List γ) :
    Refuses (∃ x ∈ xs, refused x) (xs.mapM f) (xs.mapM g) := by
  induction xs with
  | nil => exact (Refuses.of_eq rfl).congr (by simp)
  | cons x xs ih =>
    rw [List.mapM_cons, List.mapM_cons]
    exact ((h x).bind fun a => ih.map (a :: ·)).congr (by simp)

theorem refuses_ite {c : Prop} [Decidable c] {x x' y y' : Resolve α} (hx : Refuses p x x')
    (hy : Refuses p y y') : Refuses p (if c then x else y) (if c then x' else y') := by
  split
  · exact hx
  · exact hy

end Resolve

open Resolve

namespace Resolver

variable {r : Resolver} {inner : Inner} {f : Field} {levels : Nat}

section Required

variable (mode : ValueMode)

theorem callArgs_required (s : Signature) (index : Nat) (args : List Arg) :
    callArgs inner s mode index args = callArgs inner s mode.required index args := by
  induction args generalizing index with
  | nil => rfl
  | cons arg args ih =>
    simp only [callArgs, ih]
    rfl

theorem callValue_required (c : Call) (target : Option Field) :
    r.callValue inner c target mode = r.callValue inner c target mode.required := by
  simp only [callValue, call, plainCall, callArgs_required mode]
  rfl

theorem messageEntries_required (message : Message) (seen : List String)
    (entries : List StructEntry) :
    messageEntries inner message mode seen entries =
      messageEntries inner message mode.required seen entries := by
  induction entries generalizing seen with
  | nil => rfl
  | cons entry entries ih =>
    simp only [messageEntries, ih]
    rfl

theorem messageStruct_required (s : StructLiteral) :
    r.messageStruct inner f s mode = r.messageStruct inner f s mode.required := by
  simp only [messageStruct, messageEntries_required mode]

/-- Of all members only null asks for the leave. -/
theorem memberValue_required {m : Member} (hkind : m.value.kind ≠ .null) :
    r.memberValue levels f m mode = r.memberValue levels f m mode.required := by
  simp only [memberValue, if_neg hkind]
  rfl

end Required

/-! ## Where it is handed on -/

/-- One level down the leave makes no difference to a place for any value, and at a place for values
of a field it only keeps nulls from being refused. -/
structure Inner.Hands (schema : Schema) (inner : Inner) : Prop where
  comparable : ∀ f c mode, Refuses (RefusedNull schema f c) (inner.comparable f c mode)
    (inner.comparable f c mode.required)
  dynamic : ∀ c mode, inner.dynamic c mode = inner.dynamic c mode.required

section Hands

variable (hi : inner.Hands r.schema) (mode : ValueMode)

include hi

theorem dynamicEntries_required (seen : List String) (entries : List StructEntry) :
    dynamicEntries inner mode seen entries = dynamicEntries inner mode.required seen entries := by
  induction entries generalizing seen with
  | nil => rfl
  | cons entry entries ih => simp only [dynamicEntries, ih, hi.dynamic entry.value mode]

theorem dynamicMap_required (s : StructLiteral) :
    dynamicMap inner s mode = dynamicMap inner s mode.required := by
  simp only [dynamicMap, dynamicEntries_required hi mode]

theorem dynamicBody_required (c : Comparable) :
    r.dynamicBody inner c mode = r.dynamicBody inner c mode.required := by
  cases c with
  | member m => rfl
  | call c => exact callValue_required mode c none
  | struct s => exact dynamicMap_required hi mode s
  | array a => simp only [dynamicBody, hi.dynamic _ mode]

theorem mapEntries_refuses (key value : Field) (seen : List MapKey) (entries : List StructEntry) :
    Refuses (∃ entry ∈ entries, RefusedNull r.schema value entry.value)
      (mapEntries inner key value mode seen entries)
      (mapEntries inner key value mode.required seen entries) := by
  induction entries generalizing seen with
  | nil => exact (Refuses.of_eq rfl).congr (by simp)
  | cons entry entries ih =>
    rw [mapEntries, mapEntries]
    refine refuses_after _ fun k => refuses_ite (refuses_fail _ _) ?_
    have hentries := (hi.comparable value entry.value mode).bind fun v =>
      (ih (k :: seen)).map ((.value k.toValue, v) :: ·)
    exact hentries.congr (by simp)

theorem mapStruct_refuses (hmap : f.isMap = true) (s : StructLiteral) :
    Refuses (RefusedNull r.schema f (.struct s)) (mapStruct inner f s mode)
      (mapStruct inner f s mode.required) := by
  refine refuses_ite (refuses_fail _ _) ?_
  split
  · exact refuses_throw _
  · exact refuses_throw _
  · rename_i key value _ hfield
    exact ((mapEntries_refuses hi mode key value [] s.entries).map Expr.map).congr
      (refusedNull_map hmap hfield)

theorem structValue_refuses (s : StructLiteral) :
    Refuses (RefusedNull r.schema f (.struct s)) (r.structValue inner f s mode)
      (r.structValue inner f s mode.required) := by
  cases hmap : f.isMap with
  | true =>
    simp only [structValue, hmap, ↓reduceIte]
    exact mapStruct_refuses hi mode hmap s
  | false =>
    refine (Refuses.of_eq ?_).congr (by simp [not_refusedNull_struct hmap])
    simp only [structValue, hmap, Bool.false_eq_true, ↓reduceIte, dynamicMap_required hi mode,
      messageStruct_required mode, hi.dynamic (.struct s) mode]

end Hands

/-- The leave is for nulls that the field does not accept. -/
theorem nullValue_refuses (m : Member) (mode : ValueMode) :
    Refuses (f.nullable = false) (nullValue f m mode) (nullValue f m mode.required) where
  same h := by
    rw [Bool.not_eq_false] at h
    simp only [nullValue, h, Bool.true_or]
  never h := by
    refine fruitless_bind _ fun _ => ?_
    simp only [h, ValueMode.required, Bool.or_self, Bool.false_eq_true, ↓reduceIte]
    exact (refuses_fail (p := True) _ _).never trivial

theorem memberValue_refuses (levels : Nat) (m : Member) (mode : ValueMode)
    (hvalue : r.schema.wellKnownOf? f ≠ some .value) :
    Refuses (RefusedNull r.schema f (.member m)) (r.memberValue levels f m mode)
      (r.memberValue levels f m mode.required) := by
  by_cases hkind : m.value.kind = .null
  · simp only [memberValue, if_pos hkind]
    exact (nullValue_refuses m mode).congr (by simp [refusedNull_member, hkind, hvalue])
  · exact (Refuses.of_eq (memberValue_required mode hkind)).congr
      (by simp [refusedNull_member, hkind])

theorem comparableBody_refuses (hi : inner.Hands r.schema) (levels : Nat) (c : Comparable)
    (mode : ValueMode) :
    Refuses (RefusedNull r.schema f c) (r.comparableBody levels inner f c mode)
      (r.comparableBody levels inner f c mode.required) := by
  cases c with
  | array a =>
    refine refuses_ite (refuses_fail _ _) ?_
    exact ((refuses_mapM (fun e => hi.comparable f e mode) a.elements).map Expr.array).congr
      refusedNull_array
  | call c => exact (Refuses.of_eq (callValue_required mode c (some f))).congr (by simp)
  | struct s => exact structValue_refuses hi mode s
  | member m =>
    by_cases hvalue : r.schema.wellKnownOf? f = some .value
    · simp only [comparableBody, if_pos hvalue]
      exact (Refuses.of_eq (hi.dynamic _ mode)).congr (by simp [refusedNull_member, hvalue])
    · simp only [comparableBody, if_neg hvalue]
      exact memberValue_refuses levels m mode hvalue

/-- By induction on the levels that are left. -/
theorem innerAt_hands (levels : Nat) : (r.innerAt levels).Hands r.schema := by
  induction levels with
  | zero =>
    refine ⟨fun f c mode => ?_, fun c mode => ?_⟩
    · simp only [innerAt, comparableValue]
      exact refuses_fail _ _
    · simp only [innerAt, dynamicValue]
  | succ levels ih =>
    refine ⟨fun f c mode => ?_, fun c mode => ?_⟩
    · simp only [innerAt, comparableValue]
      exact comparableBody_refuses ih levels c mode
    · simp only [innerAt, dynamicValue]
      exact dynamicBody_required ih mode c

/-- What a literal is read as does not depend on the leave for null at its place, unless it is one of
a map and a null in it, below maps and arrays only, is not accepted where it stands. Without the
leave such a literal has no value. -/
theorem parseValue_optional {store : Store} {arg : Store.ArgRef} {s : StructLiteral}
    (hs : store.arg? arg = some (.comparable (.struct s))) (f : Field) (allow : Bool)
    (spent : Nat) :
    (f.isMap = false ∨ ¬RefusedNull r.schema f (.struct s) →
      r.parseValue store (some f) (some arg) ⟨allow, true⟩ spent =
        r.parseValue store (some f) (some arg) ⟨allow, false⟩ spent) ∧
    (RefusedNull r.schema f (.struct s) → ∀ reports x after,
      r.parseValue store (some f) (some arg) ⟨allow, false⟩ spent reports ≠ .ok x after) := by
  have hrefuses := (innerAt_hands (r := r) r.options.maxDepth).comparable f (.struct s) ⟨allow, true⟩
  have hparse := hrefuses.map fun e => (e, spent + e.complexity)
  simp only [parseValue, hs, freshValue_eq]
  refine ⟨fun h => hparse.same ?_, hparse.never⟩
  rcases h with hmap | hnull
  · exact not_refusedNull_struct hmap
  · exact hnull

end Resolver

/-- The literal that an argument is. -/
def Arg.struct? : Arg → Option StructLiteral
  | .comparable (.struct s) => some s
  | _ => none

theorem Arg.eq_struct_of_struct? {arg : Arg} {s : StructLiteral} (h : arg.struct? = some s) :
    arg = .comparable (.struct s) := by
  unfold struct? at h
  split at h
  · cases h
    rfl
  · cases h

/-- A count that is null is accepted where null would be accepted for all counts together, and only
there. -/
theorem null_count_accepted : ∃ store arg s f x,
    Store.empty.reparse .allExtensions "counts = \x7ba: null\x7d" = .ok store ∧
    arg ∈ store.rootArgs ∧ store.arg? arg = some (.comparable (.struct s)) ∧
    eventResolver.root.field? "counts" = some f ∧
    (eventResolver.parseValue store (some f) (some arg) ⟨false, true⟩ 0).run.1 = .ok x ∧
    RefusedNull eventResolver.schema f (.struct s) ∧
    ∀ reports y after,
      eventResolver.parseValue store (some f) (some arg) ⟨false, false⟩ 0 reports ≠ .ok y after := by
  obtain ⟨f, hf⟩ : ∃ f, eventResolver.root.field? "counts" = some f := ⟨_, rfl⟩
  obtain ⟨store, hstore, hany⟩ := exists_of_any
    (Store.empty.reparse .allExtensions "counts = \x7ba: null\x7d")
    (fun store => store.rootArgs.any fun arg => ((store.arg? arg).bind Arg.struct?).isSome &&
      (eventResolver.parseValue store (eventResolver.root.field? "counts") (some arg) ⟨false, true⟩
        0).run.1.toOption.any (fun _ => true) &&
      (eventResolver.parseValue store (eventResolver.root.field? "counts") (some arg) ⟨false, false⟩
        0).run.1.toOption.isNone) (by decide +kernel)
  rw [hf] at hany
  obtain ⟨arg, harg, hruns⟩ := List.any_eq_true.1 hany
  simp only [Bool.and_eq_true, Option.isSome_iff_exists, Option.bind_eq_some_iff] at hruns
  obtain ⟨⟨⟨s, a, ha, hs⟩, hlenient⟩, hrequired⟩ := hruns
  obtain ⟨x, hlenient, -⟩ := exists_of_any _ _ hlenient
  rw [Arg.eq_struct_of_struct? hs] at ha
  obtain ⟨hsame, hnever⟩ := Resolver.parseValue_optional (r := eventResolver) ha f false 0
  have hnull : RefusedNull eventResolver.schema f (.struct s) := by
    -- otherwise the two runs would be the same
    refine Classical.byContradiction fun hnull => ?_
    rw [← hsame (.inr hnull), hlenient] at hrequired
    cases hrequired
  exact ⟨store, arg, s, f, x, hstore, harg, ha, hf, hlenient, hnull, hnever hnull⟩

end ListQuery.Filter
