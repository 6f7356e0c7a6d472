/-
Handles over the life of a store. A store is filled and emptied again and again; each time that
nodes are dropped, all arenas start a new generation together. So their generation counts how often
that happened (`Store.Aged.run`), and a handle from before leads to nothing until the count has gone
around. Storing a tree does not look at generations: what it does to a store of another generation is
the same with other handles (`Built.renewed`). Main statement: `Store.handles_lifetime`.
-/
import ListQuery.Proofs.Parse.Loading
import ListQuery.Proofs.Store.Graph

namespace ListQuery

/-- The same arena in another generation, and so are the handles that its items keep. -/
def Arena.renewed {τ : Type} {tag : τ} {α : Type} [Filter.HasRefs α] (g : UInt32)
    (a : Arena tag α) : Arena tag α :=
  ⟨a.items.map (Filter.HasRefs.renew g), g⟩

namespace Filter.Store

open HasRefs

/-- The same store in another generation. -/
def renewed (g : UInt32) (s : Store) : Store where
  root := s.root.map (renew g)
  expressions := s.expressions.renewed g
  sequences := s.sequences.renewed g
  factors := s.factors.renewed g
  terms := s.terms.renewed g
  restrictions := s.restrictions.renewed g
  composites := s.composites.renewed g
  members := s.members.renewed g
  calls := s.calls.renewed g
  structs := s.structs.renewed g
  arrays := s.arrays.renewed g

theorem arena_renewed (g : UInt32) (s : Store) (k : NodeSort) :
    (s.renewed g).arena k = (s.arena k).renewed g := by
  cases k <;> rfl

theorem nodeCount_renewed (g : UInt32) (s : Store) : (s.renewed g).nodeCount = s.nodeCount := by
  simp [nodeCount, renewed, Arena.renewed, Arena.size]

theorem eq_of_arena {s t : Store} (hroot : s.root = t.root) (h : ∀ k, s.arena k = t.arena k) :
    s = t := by
  cases s
  cases t
  simp only [mk.injEq]
  exact ⟨hroot, h .expression, h .sequence, h .factor, h .term, h .restriction, h .composite,
    h .member, h .call, h .struct, h .array⟩

theorem root_put (k : NodeSort) (n : k.Node) (s : Store) : (put k n s).2.root = s.root := by
  cases k <;> rfl

theorem put_renewed (g : UInt32) (k : NodeSort) (n : k.Node) (s : Store) :
    put k (renew g n) (s.renewed g) = (renew g (put k n s).1, (put k n s).2.renewed g) := by
  refine Prod.ext ?_ (eq_of_arena ?_ fun l => ?_)
  · rw [put_handle, put_handle, arena_renewed]
    simp [Arena.alloc, Arena.renewed, Arena.size, renew]
  · rw [root_put]
    change s.root.map (renew g) = (put k n s).2.root.map (renew g)
    rw [root_put]
  · rw [arena_renewed]
    by_cases hl : l = k
    · subst hl
      rw [arena_put, arena_put, arena_renewed]
      simp [Arena.alloc, Arena.renewed]
    · rw [arena_put_of_ne hl, arena_put_of_ne hl, arena_renewed]

/-- Storing a tree in another generation gives the same handles and nodes in that generation. -/
theorem Built.renewed {ρ : Type} [HasRefs ρ] {m : Storing ρ} (h : Built m) (g : UInt32) :
    ∀ s : Store, m (s.renewed g) = (renew g (m s).1, (m s).2.renewed g) := by
  induction h with
  | pure x _ hrenew =>
    intro s
    rw [run_pure, run_pure, hrenew]
  | map wrap _ _ hrenew ih =>
    intro s
    rw [run_bind, ih, run_pure, run_bind, run_pure, hrenew]
  | @pair ρ σ _ _ m l _ _ ihm ihl =>
    intro s
    simp only [run_bind, run_pure, ihm, ihl]
    rfl
  | @node ρ _ m k build _ _ hrenew ih =>
    intro s
    rw [run_bind, ih, run_bind]
    dsimp only
    rw [← hrenew, put_renewed]

theorem load_some (s : Store) (e : Expression) :
    s.load (some e) =
      { (storeExpression e s.release).2 with root := some (storeExpression e s.release).1 } := rfl

theorem load_of_release {s : Store} {g : UInt32} (h : s.release = Store.empty.renewed g)
    (tree : Option Expression) : s.load tree = (Store.empty.load tree).renewed g := by
  cases tree with
  | none => exact h
  | some e =>
    have hstored := (storeExpression_built e).renewed g Store.empty
    rw [← h] at hstored
    rw [load_some, load_some, hstored]
    rfl

/-- Whether there is something to drop. -/
def occupied (s : Store) : Bool := s.root.isSome || s.nodeCount != 0

theorem occupied_of_node? {s : Store} {r : Ref} {n : r.1.Node} (h : s.node? r = some n) :
    s.occupied = true := by
  have hmem : r ∈ s.handles := mem_handles.2 (Option.isSome_of_eq_some h)
  have hne : s.nodeCount ≠ 0 := fun h0 => List.ne_nil_of_mem hmem (handles_eq_nil.2 h0)
  simp [occupied, hne]

/-- A store with nothing in it stays as it is. -/
theorem release_of_not_occupied {s : Store} (h : s.occupied = false) : s.release = s := by
  simp only [occupied, Bool.or_eq_false_iff, Option.isSome_eq_false_iff, bne_eq_false_iff_eq] at h
  simp [release, h]

theorem arena_release_of_occupied {s : Store} (h : s.occupied = true) (k : NodeSort) :
    s.release.arena k = (s.arena k).clear := by
  have hcond : (s.root.isNone && s.nodeCount == 0) = false := by
    cases hroot : s.root <;> simp_all [occupied]
  unfold release
  rw [hcond]
  cases k <;> rfl

/-- All arenas are of one generation. -/
def Aged (s : Store) (g : UInt32) : Prop := ∀ k, (s.arena k).generation = g

/-- The generation once the nodes of the store have been dropped. -/
def nextGeneration (s : Store) (g : UInt32) : UInt32 := g + UInt32.ofNat s.occupied.toNat

theorem aged_empty : Store.empty.Aged 0 := by
  intro k
  cases k <;> rfl

theorem aged_renewed (s : Store) (g : UInt32) : (s.renewed g).Aged g := by
  intro k
  rw [arena_renewed]
  rfl

theorem Aged.release {s : Store} {g : UInt32} (h : s.Aged g) :
    s.release.Aged (s.nextGeneration g) := by
  intro k
  cases hs : s.occupied with
  | true =>
    rw [arena_release_of_occupied hs, nextGeneration, hs]
    exact congrArg (· + 1) (h k)
  | false =>
    rw [release_of_not_occupied hs, h k, nextGeneration, hs]
    exact (UInt32.add_zero g).symm

/-- Stores of one generation without nodes have the same arenas. -/
theorem Aged.arena_eq {s : Store} {g : UInt32} (h : s.Aged g) (hcount : s.nodeCount = 0)
    (k : NodeSort) : s.arena k = ⟨#[], g⟩ := by
  have hnil := List.flatMap_eq_nil_iff.1 (handles_eq_nil.2 hcount) k k.mem_all
  have hsize : (s.arena k).size = 0 := by
    rw [← Arena.length_handles, List.map_eq_nil_iff.1 hnil, List.length_nil]
  have hgen := h k
  generalize s.arena k = a at hsize hgen
  obtain ⟨items, generation⟩ := a
  obtain rfl : items = #[] := Array.eq_empty_of_size_eq_zero hsize
  exact congrArg (Arena.mk #[]) hgen

theorem Aged.release_eq {s : Store} {g : UInt32} (h : s.Aged g) :
    s.release = Store.empty.renewed (s.nextGeneration g) := by
  refine eq_of_arena (root_release s) fun k => ?_
  rw [h.release.arena_eq (nodeCount_release s),
    (aged_renewed _ _).arena_eq (nodeCount_renewed _ Store.empty)]

/-- Filling a store is filling a new one, in the generation that comes next. -/
theorem Aged.reparse_eq {s : Store} {g : UInt32} (h : s.Aged g) (o : ParserOptions)
    (input : String) :
    s.reparse o input = (Store.empty.reparse o input).map (renewed (s.nextGeneration g)) := by
  rw [Store.reparse_eq, Store.reparse_eq]
  cases parse o input with
  | error e => rfl
  | ok x => exact congrArg Except.ok (load_of_release h.release_eq x)

/-- What is done with a store: a filter is read into it, or its nodes are dropped. -/
inductive Step where
  | reparse (o : ParserOptions) (input : String)
  | release

def Step.apply (s : Store) : Step → Except FilterError Store
  | .reparse o input => s.reparse o input
  | .release => .ok s.release

/-- The store after steps that all succeed. -/
def run (s : Store) (steps : List Step) : Except FilterError Store := steps.foldlM Step.apply s

/-- How often nodes are dropped on the way. Every step drops the nodes that are there when it
starts. -/
def clears (s : Store) : List Step → Nat
  | [] => 0
  | x :: xs => s.occupied.toNat + (x.apply s).toOption.elim 0 fun t => t.clears xs

theorem run_cons_ok {s t : Store} {x : Step} {xs : List Step} (h : s.run (x :: xs) = .ok t) :
    ∃ u, x.apply s = .ok u ∧ u.run xs = .ok t ∧
      s.clears (x :: xs) = s.occupied.toNat + u.clears xs := by
  rw [run, List.foldlM_cons] at h
  rw [clears]
  cases hx : x.apply s with
  | error e =>
    rw [hx] at h
    cases h
  | ok u =>
    rw [hx] at h
    exact ⟨u, rfl, h, rfl⟩

theorem Aged.step {s t : Store} {g : UInt32} {x : Step} (h : s.Aged g) (hx : x.apply s = .ok t) :
    t.Aged (s.nextGeneration g) := by
  cases x with
  | release =>
    obtain rfl : s.release = t := Except.ok.inj hx
    exact h.release
  | reparse o input =>
    obtain ⟨tree, -, rfl⟩ := reparse_ok.1 hx
    rw [load_of_release h.release_eq]
    exact aged_renewed _ _

/-- The generation counts how often nodes were dropped. -/
theorem Aged.run {t : Store} : ∀ {steps : List Step} {s : Store} {g : UInt32}, s.Aged g →
    s.run steps = .ok t → t.Aged (g + UInt32.ofNat (s.clears steps))
  | [], s, g, h, hrun => by
    obtain rfl : s = t := Except.ok.inj hrun
    change s.Aged (g + 0)
    rwa [UInt32.add_zero]
  | x :: xs, s, g, h, hrun => by
    obtain ⟨u, hx, hrun, hclears⟩ := run_cons_ok hrun
    rw [hclears, UInt32.ofNat_add, ← UInt32.add_assoc]
    exact Aged.run (h.step hx) hrun

/-! ## Handles -/

theorem Aged.generation_of_node? {s : Store} {g : UInt32} (h : s.Aged g) {r : Ref} {n : r.1.Node}
    (hn : s.node? r = some n) : r.2.generation = g := by
  unfold node? Arena.get? at hn
  split at hn
  · rename_i hg
    exact hg.trans (h r.1)
  · cases hn

/-- As long as no nodes are dropped, a store with nodes has not been touched. -/
theorem run_of_clears_eq_zero {s t : Store} {steps : List Step} (hs : s.occupied = true)
    (h : s.run steps = .ok t) (hclears : s.clears steps = 0) : s = t := by
  cases steps with
  | nil => exact Except.ok.inj h
  | cons x xs =>
    rw [clears, hs, Bool.toNat_true] at hclears
    omega

/-- A handle leads to nothing from the next generation on, until generations have gone around. -/
theorem Aged.stale {s t : Store} {g : UInt32} (h : s.Aged g) {r : Ref} {n : r.1.Node}
    (hn : s.node? r = some n) {steps : List Step} (hrun : s.run steps = .ok t)
    (hpos : 1 ≤ s.clears steps) (hlt : s.clears steps < UInt32.size) : t.node? r = none := by
  cases ht : t.node? r with
  | none => rfl
  | some x =>
    -- a handle that leads somewhere is of the generation of its store, so the two would be one
    have hage : g = g + UInt32.ofNat (s.clears steps) :=
      (h.generation_of_node? hn).symm.trans ((h.run hrun).generation_of_node? ht)
    have hzero : UInt32.ofNat (s.clears steps) = 0 := UInt32.left_eq_add.1 hage
    have hnat := congrArg UInt32.toNat hzero
    rw [UInt32.toNat_ofNat_of_lt' hlt] at hnat
    exact absurd hnat (by simpa using Nat.ne_of_gt hpos)

theorem node?_renewed {s : Store} {g₀ : UInt32} (h : s.Aged g₀) (g : UInt32) (k : NodeSort)
    (i : Nat) : (s.renewed g).node? ⟨k, ⟨i, g⟩⟩ = (s.node? ⟨k, ⟨i, g₀⟩⟩).map (renew g) := by
  rw [node?, arena_renewed, node?]
  simp [Arena.get?, Arena.renewed, h k]

/-- A new store and the same one of another generation: the nodes have the same indices and differ
in the handles that they keep, by their generation alone, and the tree is the same. -/
structure Mirrors (t : Store) (g : UInt32) (u : Store) : Prop where
  eq : u = t.renewed g
  nodes : ∀ k i, u.node? ⟨k, ⟨i, g⟩⟩ = (t.node? ⟨k, ⟨i, 0⟩⟩).map (renew g)
  tree : u.tree? = t.tree?
  render : ∀ q, u.render q = t.render q

theorem Aged.mirrors {s : Store} {g : UInt32} (h : s.Aged g) (tree : Option Expression) :
    (Store.empty.load tree).Mirrors (s.nextGeneration g) (s.load tree) := by
  have heq := load_of_release h.release_eq tree
  have htree : (s.load tree).tree? = (Store.empty.load tree).tree? := by
    rw [tree?_load, tree?_load]
  refine ⟨heq, fun k i => ?_, htree, fun q => ?_⟩
  · have hnew : (Store.empty.load tree).Aged 0 := by
      rw [load_of_release aged_empty.release_eq]
      exact aged_renewed _ _
    rw [heq, node?_renewed hnew]
  · rw [Store.render, htree, ← Store.render]

/-- The life of a store that starts without nodes. All arenas share one generation, which counts how
often nodes were dropped. A handle leads to its node until that happens next, and then to nothing
until the count has gone around. Dropping nothing changes nothing. Reading a filter fails or gives a
tree as it does with a new store, in another generation. -/
theorem handles_lifetime (steps : List Step) (s : Store) (h : Store.empty.run steps = .ok s) :
    (∀ k, (s.arena k).generation.toNat = Store.empty.clears steps % UInt32.size) ∧
    (∀ r n, s.node? r = some n → ∀ later t, s.run later = .ok t →
      (s.clears later = 0 → t.node? r = some n) ∧
      (1 ≤ s.clears later → s.clears later < UInt32.size → t.node? r = none)) ∧
    (s.occupied = false → s.release = s) ∧
    s.release.release = s.release ∧
    ∃ g, ∀ o input,
      (∀ e, Store.empty.reparse o input = .error e → s.reparse o input = .error e) ∧
      ∀ t, Store.empty.reparse o input = .ok t →
        ∃ u, s.reparse o input = .ok u ∧ t.Mirrors g u := by
  have hage := aged_empty.run h
  rw [UInt32.zero_add] at hage
  refine ⟨fun k => ?_, fun r n hn later t hrun => ⟨fun hzero => ?_, hage.stale hn hrun⟩,
    release_of_not_occupied, ?_, s.nextGeneration (UInt32.ofNat (Store.empty.clears steps)),
    fun o input => ⟨fun e he => ?_, fun t ht => ?_⟩⟩
  · rw [hage k, UInt32.toNat_ofNat']
  · rwa [← run_of_clears_eq_zero (occupied_of_node? hn) hrun hzero]
  · refine release_of_not_occupied ?_
    rw [occupied, root_release, nodeCount_release]
    rfl
  · rw [hage.reparse_eq, he]
    rfl
  · obtain ⟨tree, htree, rfl⟩ := reparse_ok.1 ht
    exact ⟨s.load tree, reparse_ok.2 ⟨tree, htree, rfl⟩, hage.mirrors tree⟩

/-- A store that is filled, emptied twice, and filled two times more. The handle of a member leads to
nothing in the last tree, although that has a member of the same index. -/
theorem handles_lifetime_reused : ∃ s t,
    Store.empty.run [.reparse {} "a OR b", .release, .release, .reparse {} "c"] = .ok s ∧
    (∀ k, (s.arena k).generation.toNat = 1) ∧
    (s.node? ⟨.member, ⟨0, 1⟩⟩).isSome = true ∧
    s.run [.reparse {} "d"] = .ok t ∧ s.clears [.reparse {} "d"] = 1 ∧
    t.node? ⟨.member, ⟨0, 1⟩⟩ = none ∧ (t.node? ⟨.member, ⟨0, 2⟩⟩).isSome = true ∧
    s.release.release = s.release ∧
    ∃ g u, s.reparse {} "d" = .ok u ∧ ∃ fresh, Store.empty.reparse {} "d" = .ok fresh ∧
      fresh.Mirrors g u := by
  obtain ⟨s, hs, hnode, hclears, hlater⟩ := exists_of_toOption_any
    (Store.empty.run [.reparse {} "a OR b", .release, .release, .reparse {} "c"])
    (fun s => (s.node? ⟨.member, ⟨0, 1⟩⟩).isSome = true ∧ s.clears [.reparse {} "d"] = 1 ∧
      (s.run [.reparse {} "d"]).toOption.any
        (fun t => decide ((t.node? ⟨.member, ⟨0, 2⟩⟩).isSome = true)) = true)
    (by decide +kernel)
  obtain ⟨t, ht, hnode'⟩ := exists_of_toOption_any _ _ hlater
  obtain ⟨fresh, hfresh, -⟩ := exists_of_toOption_any (Store.empty.reparse {} "d") (fun _ => True)
    (by decide +kernel)
  have hcount : Store.empty.clears
      [.reparse {} "a OR b", .release, .release, .reparse {} "c"] = 1 := by decide +kernel
  obtain ⟨hgeneration, hhandles, -, hrelease, g, hreparse⟩ := handles_lifetime _ s hs
  obtain ⟨n, hn⟩ := Option.isSome_iff_exists.1 hnode
  obtain ⟨u, hu, hmirrors⟩ := (hreparse {} "d").2 fresh hfresh
  refine ⟨s, t, hs, fun k => ?_, hnode, ht, hclears, ?_, hnode', hrelease, g, u, hu, fresh, hfresh,
    hmirrors⟩
  · rw [hgeneration k, hcount]
    decide
  · exact (hhandles _ n hn _ t ht).2 (Nat.le_of_eq hclears.symm) (by rw [hclears]; decide)

end Filter.Store

end ListQuery
