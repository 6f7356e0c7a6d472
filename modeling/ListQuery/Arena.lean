/-
Storage that hands out handles. Clearing an arena starts a new generation, so a handle that was kept
over it leads to nothing instead of to another item.
-/
import ListQuery.Text.Shown

namespace ListQuery

/-- A handle to an item of the arena with this tag. It holds what was kept of the place of the item
(`Filter.Loader.add`): all of it, or what goes into 32 bits. -/
structure Handle {τ : Type} (tag : τ) where
  index : Nat
  generation : UInt32
deriving DecidableEq, Repr

/-- A handle shown for inspection. -/
def Handle.shown {τ : Type} {tag : τ} (h : Handle tag) : String :=
  "Idx(" ++ Text.decimal h.index ++ "@" ++ Text.decimal h.generation.toNat ++ ")"

/-- Items in the order in which they came, and the generation that they belong to. Generations wrap
around. -/
structure Arena {τ : Type} (tag : τ) (α : Type) where
  items : Array α := #[]
  generation : UInt32 := 0

namespace Arena

variable {τ : Type} {tag : τ} {α : Type}

def size (a : Arena tag α) : Nat := a.items.size

def isEmpty (a : Arena tag α) : Bool := a.size == 0

/-- Adds an item, and tells its place. -/
def alloc (a : Arena tag α) (item : α) : Handle tag × Arena tag α :=
  (⟨a.size, a.generation⟩, { a with items := a.items.push item })

def get? (a : Arena tag α) (h : Handle tag) : Option α :=
  if h.generation = a.generation then a.items[h.index]? else none

/-- Changes the item behind a handle; a handle that leads to nothing changes nothing. -/
def modify (a : Arena tag α) (h : Handle tag) (f : α → α) : Arena tag α :=
  if h.generation = a.generation then { a with items := a.items.modify h.index f } else a

/-- Drops all items and starts a new generation. -/
def clear (a : Arena tag α) : Arena tag α := ⟨#[], a.generation + 1⟩

/-- An arena shown for inspection. -/
def shown (show_ : α → String) (a : Arena tag α) : String :=
  Text.shownRecord "Arena" [
    ("generation", Text.decimal a.generation.toNat),
    ("items", Text.shownList (a.items.toList.map show_))]

theorem get?_alloc_self (a : Arena tag α) (item : α) :
    (a.alloc item).2.get? (a.alloc item).1 = some item := by
  simp [alloc, get?, size]

theorem get?_alloc_of_get? {a : Arena tag α} {h : Handle tag} {x : α} (item : α)
    (hx : a.get? h = some x) : (a.alloc item).2.get? h = some x := by
  simp only [get?, alloc] at hx ⊢
  split at hx
  · rename_i hg
    have hlt : h.index < a.items.size := by
      rw [Array.getElem?_eq_some_iff] at hx
      exact hx.1
    simp [hg, Array.getElem?_push, Nat.ne_of_lt hlt, hx]
  · cases hx

/-- Changing the item that was added last is adding it changed. -/
theorem modify_alloc (a : Arena tag α) (item : α) (f : α → α) :
    (a.alloc item).2.modify (a.alloc item).1 f = (a.alloc (f item)).2 := by
  have hmodify : (a.items.push item).modify a.items.size f = a.items.push (f item) := by grind
  simp [alloc, modify, size, hmodify]

end Arena

end ListQuery
