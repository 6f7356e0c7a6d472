/-
What dotted paths bind. A path walks through messages: a segment is the name of a field or, behind a
map, a key of it, and a walk goes on in messages only (`Walk`). A path is bound exactly when
there is such a walk with no more fields than there are levels of nesting, and the selector has the
places of the walk as its steps (`Resolver.select_iff_walk`).
-/
import Mathlib.Algebra.Ring.Nat
import Mathlib.Data.List.Forall2
import Mathlib.Tactic.SplitIfs
import ListQuery.Proofs.Resolve.Balance
import ListQuery.Proofs.Resolve.Levels
import ListQuery.Proofs.Resolve.Meets
import ListQuery.Proofs.Schema.Checked

namespace ListQuery.Filter

open Resolve

theorem integerLiteral_pure_or_fail (f : Field) (l : Leaf) :
    (∃ k, integerLiteral f l = pure k) ∨ ∃ pos cause, integerLiteral f l = fail pos cause := by
  unfold integerLiteral mismatch
  dsimp only
  split
  · exact .inr ⟨_, _, rfl⟩
  split
  · exact .inr ⟨_, _, rfl⟩
  split_ifs
  all_goals first | exact .inl ⟨_, rfl⟩ | exact .inr ⟨_, _, rfl⟩

theorem mapKey_pure_or_fail (key : Field) (l : Leaf) :
    (∃ k, mapKey key l = pure k) ∨ ∃ pos cause, mapKey key l = fail pos cause := by
  unfold mapKey
  split_ifs
  · exact .inl ⟨_, rfl⟩
  · exact .inl ⟨_, rfl⟩
  · exact integerLiteral_pure_or_fail key l
  · exact .inr ⟨_, _, rfl⟩

/-- A leaf as a key of a map, if it is one. -/
def Leaf.keyAs? (l : Leaf) (key : Field) : Option MapKey := (mapKey key l).run.1.toOption

theorem mapKey_keyAs? {faults : Prop} (key : Field) (l : Leaf) :
    Meets faults (mapKey key l) fun k => l.keyAs? key = some k := by
  unfold Leaf.keyAs? Resolve.run
  rcases mapKey_pure_or_fail key l with ⟨k, h⟩ | ⟨pos, cause, h⟩
  · rw [h]
    exact meets_pure rfl
  · rw [h]
    exact meets_fail pos cause

theorem mapKey_eq_pure {key : Field} {l : Leaf} {k : MapKey} (hk : l.keyAs? key = some k) :
    mapKey key l = pure k := by
  unfold Leaf.keyAs? Resolve.run at hk
  rcases mapKey_pure_or_fail key l with ⟨k', h⟩ | ⟨pos, cause, h⟩
  · rw [h] at hk ⊢
    cases hk
    rfl
  · rw [h] at hk
    cases hk

/-! ## Walks -/

/-- A place on a walk: a field, or the entry of a map with its values' field. -/
inductive Place where
  | field (f : Field)
  | key (k : MapKey) (value : Field)

namespace Place

/-- The field or map value at a place. -/
def target : Place → Field
  | field f => f
  | key _ value => value

/-- The step that leads to a place. -/
def step : Place → SelectorStep
  | field f => .field (.ofField f)
  | key k value => .key k value.kind

/-- Fields cost what they declare, one if they declare nothing, and keys cost nothing. -/
def cost : Place → Nat
  | field f => f.complexity.getD 1
  | key _ _ => 0

@[simp] theorem cost_key (k : MapKey) (value : Field) : (key k value).cost = 0 := rfl

def isField : Place → Bool
  | field _ => true
  | key _ _ => false

/-- The number of fields among places, the levels that a walk takes. -/
def fields (places : List Place) : Nat := places.countP isField

@[simp] theorem fields_nil : fields [] = 0 := rfl

@[simp] theorem fields_field (f : Field) (places : List Place) :
    fields (field f :: places) = fields places + 1 :=
  List.countP_cons_of_pos rfl

@[simp] theorem fields_key (k : MapKey) (value : Field) (places : List Place) :
    fields (key k value :: places) = fields places :=
  List.countP_cons_of_neg Bool.false_ne_true

end Place

/-- A leaf that is the name of a field of a message. -/
structure Leaf.Names (l : Leaf) (m : Message) (f : Field) : Prop where
  isIdentifier : l.isIdentifier = true
  field : m.field? l.unquoted = some f

/-- Paths through a message, with the place that each segment leads to. -/
inductive Walk (s : Schema) : Message → List Leaf → List Place → Prop
  /-- The last segment names any field. -/
  | last {m : Message} {leaf : Leaf} {f : Field} (name : leaf.Names m f) :
    Walk s m [leaf] [.field f]
  /-- Behind a field that holds messages, and is no map, the walk goes on in the message. -/
  | into {m inner : Message} {leaf : Leaf} {f : Field} {rest : List Leaf} {places : List Place}
    (name : leaf.Names m f) (hmap : f.isMap = false) (message : s.messageOf? f = some inner)
    (walk : Walk s inner rest places) : Walk s m (leaf :: rest) (.field f :: places)
  /-- The segment behind a map is a key of it. -/
  | key {m : Message} {leaf next : Leaf} {f key value : Field} {k : MapKey}
    (name : leaf.Names m f) (hmap : f.isMap = true) (mapKey : f.mapKey = some key)
    (mapValue : f.mapValue = some value) (reads : next.keyAs? key = some k) :
    Walk s m [leaf, next] [.field f, .key k value]
  /-- Behind a key the walk goes on in the message of the map's values. -/
  | entry {m inner : Message} {leaf next : Leaf} {f key value : Field} {k : MapKey}
    {rest : List Leaf} {places : List Place}
    (name : leaf.Names m f) (hmap : f.isMap = true) (mapKey : f.mapKey = some key)
    (mapValue : f.mapValue = some value) (reads : next.keyAs? key = some k)
    (message : s.messageOf? value = some inner) (walk : Walk s inner rest places) :
    Walk s m (leaf :: next :: rest) (.field f :: .key k value :: places)

/-- A selector and the field at its end that have the steps of a walk. -/
structure Selector.Follows (x : Selector) (target : Field) (places : List Place) : Prop where
  steps : .field x.head :: x.steps = places.map Place.step
  target : places.getLast?.map Place.target = some target

/-- What a segment says about its place. -/
def Leaf.LeadsTo (l : Leaf) : Place → Prop
  | .field f => l.isIdentifier = true ∧ l.unquoted = f.name
  | .key k _ => ∃ key, l.keyAs? key = some k

namespace Walk

variable {s : Schema} {m : Message} {path : List Leaf} {places : List Place}

theorem path_ne_nil (h : Walk s m path places) : path ≠ [] := by
  cases h <;> exact List.cons_ne_nil _ _

/-- A walk has one place for each segment, in their order. -/
theorem leadsTo (h : Walk s m path places) : List.Forall₂ Leaf.LeadsTo path places := by
  have hname {m : Message} {l : Leaf} {f : Field} (h : l.Names m f) : l.LeadsTo (.field f) :=
    ⟨h.isIdentifier, (Message.name_of_field? h.field).symm⟩
  induction h with
  | last name => exact .cons (hname name) .nil
  | into name _ _ _ ih => exact .cons (hname name) ih
  | key name _ _ _ reads => exact .cons (hname name) (.cons ⟨_, reads⟩ .nil)
  | entry name _ _ _ reads _ _ ih => exact .cons (hname name) (.cons ⟨_, reads⟩ ih)

end Walk

namespace Selector.Follows

variable {x : Selector} {f target : Field} {places : List Place}

theorem ofField (f : Field) : Follows ⟨.ofField f, []⟩ f [.field f] := ⟨rfl, rfl⟩

theorem ofEntry (f value : Field) (k : MapKey) :
    Follows ⟨.ofField f, [.key k value.kind]⟩ value [.field f, .key k value] := ⟨rfl, rfl⟩

theorem stepInto (h : x.Follows target places) (f : Field) :
    (Resolver.stepInto f x).Follows target (.field f :: places) := by
  refine ⟨congrArg _ h.steps, ?_⟩
  cases places with
  | nil => cases h.steps
  | cons p places => exact h.target

theorem stepThrough (h : x.Follows target places) (f value : Field) (k : MapKey) :
    Follows ⟨.ofField f, .key k value.kind :: .field x.head :: x.steps⟩ target
      (.field f :: .key k value :: places) := by
  refine ⟨congrArg (fun steps => .field (.ofField f) :: .key k value.kind :: steps) h.steps, ?_⟩
  cases places with
  | nil => cases h.steps
  | cons p places => exact h.target

/-- The kind at the end of a selector is that of the last place. -/
theorem leafKind (h : x.Follows target places) : x.leafKind = target.kind := by
  obtain ⟨head, steps⟩ := x
  obtain ⟨p, hp, rfl⟩ := Option.map_eq_some_iff.1 h.target
  have hlast : (SelectorStep.field head :: steps).getLast? = some p.step := by
    rw [h.steps, List.getLast?_map, hp, Option.map_some]
  rw [List.getLast?_cons] at hlast
  unfold Selector.leafKind
  cases hsteps : steps.getLast? with
  | none =>
    rw [hsteps] at hlast
    cases p <;> cases hlast
    rfl
  | some last =>
    rw [hsteps] at hlast
    cases p <;> cases hlast <;> rfl

theorem stepsComplexity_map (places : List Place) :
    Selector.stepsComplexity (places.map Place.step) = (places.map Place.cost).sum := by
  induction places with
  | nil => rfl
  | cons p places ih =>
    cases p with
    | field f => simp only [List.map_cons, Place.step, Selector.stepsComplexity, ih,
        List.sum_cons, Place.cost, FieldStep.ofField, defaultComplexity]
    | key k value => simp only [List.map_cons, Place.step, Selector.stepsComplexity, ih,
        List.sum_cons, Place.cost, Nat.zero_add]

/-- A selector costs what its fields cost. -/
theorem complexity (h : x.Follows target places) :
    x.complexity = (places.map Place.cost).sum := by
  rw [← stepsComplexity_map, ← h.steps]
  rfl

end Selector.Follows

namespace Resolver

variable {r : Resolver} {levels : Nat} {m : Message} {path : List Leaf} {places : List Place}
  {s s' : List (Report ValueCause)}

/-- A selector comes from a walk. -/
theorem select_walk (levels : Nat) (m : Message) (path : List Leaf) :
    Meets True (r.select levels m path) fun x => ∃ places, Walk r.schema m path places ∧
      Place.fields places ≤ levels ∧ x.1.Follows x.2 places := by
  -- each field on the walk takes a level, a key takes none
  induction levels generalizing m path with
  | zero =>
    cases path with
    | nil => rw [select]; exact meets_throw (fun hfault => hfault trivial) _
    | cons leaf rest => rw [select]; exact meets_fail _ _
  | succ levels ih =>
    cases path with
    | nil => rw [select]; exact meets_throw (fun hfault => hfault trivial) _
    | cons leaf rest =>
      rw [select]
      refine meets_ite (fun _ => meets_fail _ _) fun hname => ?_
      split
      · exact meets_fail _ _
      rename_i field hfield
      have name : leaf.Names m field := ⟨by simpa using hname, hfield⟩
      split
      · exact meets_pure ⟨_, .last name, by simp, .ofField field⟩
      refine meets_ite (fun hmap => ?_) fun hmap => ?_
      · split
        · exact meets_throw (fun hfault => hfault trivial) _
        · exact meets_throw (fun hfault => hfault trivial) _
        rename_i key value hkey hvalue
        refine (mapKey_keyAs? key _).bind fun k hreads => ?_
        split
        · exact meets_pure ⟨_, .key name hmap hkey hvalue hreads, by simp,
            .ofEntry field value k⟩
        split
        · exact meets_fail _ _
        rename_i inner hinner
        refine (ih inner _).bind fun x ⟨places, hwalk, hcount, hfollows⟩ => meets_pure ?_
        exact ⟨_, .entry name hmap hkey hvalue hreads hinner hwalk,
          by simpa using hcount, hfollows.stepThrough field value k⟩
      · split
        · rename_i inner hinner
          refine (ih inner _).bind fun x ⟨places, hwalk, hcount, hfollows⟩ => meets_pure ?_
          exact ⟨_, .into name (by simpa using hmap) hinner hwalk,
            by simpa using hcount, hfollows.stepInto field⟩
        · exact meets_fail _ _

/-- A walk with no more fields than there are levels gives a selector. -/
theorem exists_select (hwalk : Walk r.schema m path places)
    (hcount : Place.fields places ≤ levels) (s : List (Report ValueCause)) :
    ∃ x, r.select levels m path s = .ok x s := by
  induction hwalk generalizing levels with
  | last name =>
    cases levels with
    | zero => simp at hcount
    | succ levels =>
      rw [select]
      simp only [name.isIdentifier, name.field, Bool.not_true, Bool.false_eq_true, if_false]
      exact ⟨_, rfl⟩
  | into name hmap message walk ih =>
    cases levels with
    | zero => simp at hcount
    | succ levels =>
      obtain ⟨next, remaining, rfl⟩ := List.exists_cons_of_ne_nil walk.path_ne_nil
      obtain ⟨x, hx⟩ := @ih levels (by simpa using hcount)
      rw [select]
      simp only [name.isIdentifier, name.field, hmap, message, Bool.not_true, Bool.false_eq_true,
        if_false]
      exact ⟨_, bind_ok.2 ⟨x, s, hx, rfl⟩⟩
  | key name hmap hkey hvalue reads =>
    cases levels with
    | zero => simp at hcount
    | succ levels =>
      rw [select]
      simp only [name.isIdentifier, name.field, hmap, hkey, hvalue, mapKey_eq_pure reads,
        Bool.not_true, Bool.false_eq_true, if_false, if_true]
      exact ⟨_, rfl⟩
  | entry name hmap hkey hvalue reads message walk ih =>
    cases levels with
    | zero => simp at hcount
    | succ levels =>
      obtain ⟨next, remaining, rfl⟩ := List.exists_cons_of_ne_nil walk.path_ne_nil
      obtain ⟨x, hx⟩ := @ih levels (by simpa using hcount)
      rw [select]
      simp only [name.isIdentifier, name.field, hmap, hkey, hvalue, mapKey_eq_pure reads, message,
        Bool.not_true, Bool.false_eq_true, if_false, if_true, pure_bind]
      exact ⟨_, bind_ok.2 ⟨x, s, hx, rfl⟩⟩

/-- A path is bound exactly when it is a walk with no more fields than there are levels. What it is
bound to has a step for each segment, with the kind and the field of the last one at its end and the
cost of all fields on the way. With a counter of the levels that have been entered it is bound to
the same, and the counter is then where it was. -/
theorem select_iff_walk (r : Resolver) (levels : Nat) (m : Message) (path : List Leaf)
    (s : List (Report ValueCause)) :
    ((∃ x s', r.select levels m path s = .ok x s') ↔
      ∃ places, Walk r.schema m path places ∧ Place.fields places ≤ levels) ∧
    (∀ x f s', r.select levels m path s = .ok (x, f) s' →
      ∃ places, Walk r.schema m path places ∧ List.Forall₂ Leaf.LeadsTo path places ∧
        .field x.head :: x.steps = places.map Place.step ∧
        places.getLast?.map Place.target = some f ∧ x.leafKind = f.kind ∧
        x.complexity = (places.map Place.cost).sum ∧ s' = s) ∧
    ∀ depth fuel, depth + levels = r.options.maxDepth → levels < fuel →
      Counted.Counts depth (Counted.select r fuel m path) (r.select levels m path) := by
  refine ⟨⟨?_, ?_⟩, ?_, fun depth fuel hdepth hfuel =>
    Counted.select_counts hdepth hfuel m path⟩
  · rintro ⟨x, s', h⟩
    obtain ⟨⟨places, hwalk, hcount, -⟩, -⟩ := (select_walk levels m path).of_ok h
    exact ⟨places, hwalk, hcount⟩
  · rintro ⟨places, hwalk, hcount⟩
    obtain ⟨x, h⟩ := exists_select hwalk hcount s
    exact ⟨x, s, h⟩
  · intro x f s' h
    obtain ⟨⟨places, hwalk, -, hfollows⟩, rfl⟩ := (select_walk levels m path).of_ok h
    exact ⟨places, hwalk, hwalk.leadsTo, hfollows.steps, hfollows.target, hfollows.leafKind,
      hfollows.complexity, rfl⟩

end Resolver

end ListQuery.Filter
