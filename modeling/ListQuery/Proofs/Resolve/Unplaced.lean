/-
A tree without its places resolves to what the tree resolves to, and a resolver with another limit
that starts with as many levels gives the same (`Resolver.innerAt_unplaced`): where one run gives a
value the other gives it, and where one run fails so does the other, at a place of its own.
-/
import ListQuery.Proofs.Resolve.Moved

namespace ListQuery.Filter

namespace Leaf

variable (l : Leaf)

@[simp] theorem unplaced_kind : l.unplaced.kind = l.kind := rfl
@[simp] theorem unplaced_raw : l.unplaced.raw = l.raw := rfl
@[simp] theorem unplaced_unquoted : l.unplaced.unquoted = l.unquoted := rfl

end Leaf

@[simp] theorem Member.unplaced_path (m : Member) :
    m.unplaced.path = m.path.map Leaf.unplaced := rfl

@[simp] theorem joinPath_unplaced (q : Quoting) (path : List Leaf) :
    joinPath q (path.map Leaf.unplaced) = joinPath q path :=
  joinPath_moved .nowhere q path

@[simp] theorem StructLiteral.unplaced_name (s : StructLiteral) :
    s.unplaced.name = s.name.map Leaf.unplaced := by
  cases s
  rfl

@[simp] theorem StructLiteral.unplaced_entries (s : StructLiteral) :
    s.unplaced.entries = s.entries.map StructEntry.unplaced := by
  cases s
  exact unplacedEntries_eq _

/-! ## Runs that agree -/

namespace Resolve

variable {α β γ : Type}

/-- Both steps give the same value or both fail, whatever has been reported. -/
def Agree (x y : Resolve α) : Prop :=
  ∀ s t a, (∃ s', x s = .ok a s') ↔ ∃ t', y t = .ok a t'

theorem Agree.symm {x y : Resolve α} (h : Agree x y) : Agree y x := fun s t a => (h t s a).symm

theorem Agree.trans {x y z : Resolve α} (h : Agree x y) (h' : Agree y z) : Agree x z :=
  fun s t a => (h s [] a).trans (h' [] t a)

theorem Agree.left {x y : Resolve α} (h : Agree x y) : Agree x x := h.trans h.symm

theorem run_eq_ok {x : Resolve α} {a : α} :
    x.run.1 = .ok a ↔ ∃ s, x [] = .ok a s := by
  unfold run
  cases x [] with
  | ok b s => simp
  | error e s => simp

theorem agree_throw (e e' : FilterError) : Agree (throw e : Resolve α) (throw e') := by
  intro s t b
  constructor <;> rintro ⟨_, h⟩ <;> cases h

theorem agree_ite {c : Prop} [Decidable c] {x x' y y' : Resolve α} (hx : Agree x x')
    (hy : Agree y y') : Agree (if c then x else y) (if c then x' else y') := by
  split
  · exact hx
  · exact hy

theorem Agree.bind {x y : Resolve α} {f g : α → Resolve β} (h : Agree x y)
    (hf : ∀ a, Agree (f a) (g a)) : Agree (x >>= f) (y >>= g) := by
  intro s t b
  simp only [bind_ok]
  constructor
  · rintro ⟨s', a, s₁, ha, hb⟩
    obtain ⟨t₁, ha⟩ := (h s t a).1 ⟨s₁, ha⟩
    obtain ⟨t', hb⟩ := (hf a s₁ t₁ b).1 ⟨s', hb⟩
    exact ⟨t', a, t₁, ha, hb⟩
  · rintro ⟨t', a, t₁, ha, hb⟩
    obtain ⟨s₁, ha⟩ := (h s t a).2 ⟨t₁, ha⟩
    obtain ⟨s', hb⟩ := (hf a s₁ t₁ b).2 ⟨t', hb⟩
    exact ⟨s', a, s₁, ha, hb⟩

theorem agree_pure (a : α) : Agree (pure a) (pure a) := by
  intro s t b
  constructor <;> rintro ⟨_, h⟩ <;> cases h <;> exact ⟨_, rfl⟩

theorem agree_mapM {f : γ → Resolve α} (h : ∀ x, Agree (f x) (f x)) :
    ∀ xs : List γ, Agree (xs.mapM f) (xs.mapM f)
  | [] => agree_pure []
  | x :: xs => by
    rw [List.mapM_cons]
    exact (h x).bind fun a => (agree_mapM h xs).bind fun as => agree_pure (a :: as)

/-- Where only the places of failures move, the values agree. -/
theorem Moves.agree {m : Move} {x y : Resolve α} (h : Moves m x y) : Agree x y := by
  intro s t a
  rcases h s t with ⟨b, s', t', hx, hy⟩ | ⟨e, s', t', hx, hy⟩
  · rw [hx, hy]
    simp
  · rw [hx, hy]
    simp

end Resolve

open Resolve

namespace Resolver

variable {r : Resolver} {depth : Nat}

theorem selectRoot_unplaced (levels : Nat) (path : List Leaf) :
    Agree (r.selectRoot levels path)
      ((r.withDepth depth).selectRoot levels (path.map Leaf.unplaced)) :=
  (@selectRoot_moved .nowhere r depth levels path).agree

/-- Resolution one level down agrees on a tree and on the tree without its places. -/
structure Inner.Agree (inner inner' : Inner) : Prop where
  comparable : ∀ f c mode,
    Resolve.Agree (inner.comparable f c mode) (inner'.comparable f c.unplaced mode)
  group : ∀ f e mode, Resolve.Agree (inner.group f e mode) (inner'.group f e.unplaced mode)
  dynamic : ∀ c mode, Resolve.Agree (inner.dynamic c mode) (inner'.dynamic c.unplaced mode)

theorem innerAt_unplaced (hhooks : r.options.HookFree) (levels : Nat) :
    (r.innerAt levels).Agree ((r.withDepth depth).innerAt levels) := by
  have h := @innerAt_moved .nowhere r depth hhooks levels
  refine ⟨fun f c mode => ?_, fun f e mode => ?_, fun c mode => ?_⟩
  · rw [c.unplaced_eq]
    exact (h.comparable f c mode).agree
  · rw [e.unplaced_eq]
    exact (h.group f e mode).agree
  · rw [c.unplaced_eq]
    exact (h.dynamic c mode).agree

theorem resolveTree_ok {e : Expression} {filter : ResolvedFilter} {s : List (Report ValueCause)} :
    (∃ s', r.resolveTree (some e) s = .ok filter s') ↔
      ∃ v, (∃ s', r.expression r.options.maxDepth e s = .ok v s') ∧
        filter = ⟨some v, v.complexity⟩ := by
  rw [resolveTree_some]
  constructor
  · rintro ⟨s', h⟩
    obtain ⟨v, s₁, hv, h⟩ := bind_ok.1 h
    cases h
    exact ⟨v, ⟨_, hv⟩, rfl⟩
  · rintro ⟨v, ⟨s', hv⟩, rfl⟩
    exact ⟨s', bind_ok.2 ⟨v, s', hv, rfl⟩⟩

/-- A tree without its places resolves to what the tree resolves to. -/
theorem resolveTree_unplaced (hhooks : r.options.HookFree) (e : Expression) :
    Resolve.Agree (r.resolveTree (some e)) (r.resolveTree (some e.unplaced)) := by
  rw [e.unplaced_eq]
  exact (resolveTree_moved hhooks e).agree

end Resolver

end ListQuery.Filter
