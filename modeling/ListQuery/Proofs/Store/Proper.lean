/-
The nodes of a store that was filled are those of one tree. Storing a part of a tree adds the nodes
of a forest, whose roots are the handles that come back (`Built.grows`). What a forest is says at
once that each of its nodes is kept by one slot or is a root, that it is reached from a root, and
that no way leads back to it (`Forest.perm`, `Forest.reached`, `Forest.acc`). Main statement:
`Store.reparse_proper`.
-/
import Mathlib.Data.Set.Card
import Mathlib.Logic.Relation
import ListQuery.Proofs.Resolve.Filters
import ListQuery.Proofs.Store.Graph
import ListQuery.Proofs.Store.Narrow

namespace ListQuery.Filter.Store

open HasRefs Relation

/-- The handles that the node behind a handle keeps. -/
def slots (s : Store) (r : Ref) : List Ref := (s.node? r).elim [] refs

/-- One node keeps the handle of another. -/
def Refers (s : Store) (parent child : Ref) : Prop := child ∈ s.slots parent

/-- The handle of the root, if there is one. -/
def roots (s : Store) : List Ref := s.root.toList.map (Sigma.mk .expression)

/-- A node that is reached from the root. -/
def Reached (s : Store) (r : Ref) : Prop := ∃ root ∈ s.roots, ReflTransGen s.Refers root r

/-- The nodes are those of one tree. -/
structure Proper (s : Store) : Prop where
  /-- Every handle that is kept leads to a node. -/
  found : (∀ r ∈ s.roots, (s.node? r).isSome = true) ∧
    ∀ parent child, s.Refers parent child → (s.node? child).isSome = true
  /-- The root has no parent. -/
  root : ∀ r ∈ s.roots, ∀ parent, ¬ s.Refers parent r
  /-- Every other node is kept once, in the slots of all nodes together. -/
  parent : ∀ r, (s.node? r).isSome = true → r ∉ s.roots → (s.handles.flatMap s.slots).count r = 1
  acyclic : ∀ r, ¬ TransGen s.Refers r r
  reached : ∀ r, (s.node? r).isSome = true ↔ s.Reached r
  count : s.nodeCount = Set.ncard {r | s.Reached r}

theorem slots_eq {s : Store} {r : Ref} {n : r.1.Node} (h : s.node? r = some n) :
    s.slots r = refs n := by
  rw [slots, h]
  rfl

theorem isSome_of_refers {s : Store} {parent child : Ref} (h : s.Refers parent child) :
    (s.node? parent).isSome = true := by
  unfold Refers slots at h
  cases hn : s.node? parent with
  | none =>
    rw [hn] at h
    cases h
  | some n => rfl

/-- The handles of roots, and those of all nodes of the trees below them. -/
inductive Forest (s : Store) : List Ref → List Ref → Prop where
  | nil : Forest s [] []
  | cons {r : Ref} {n : r.1.Node} {rs ms ns : List Ref} (node : s.node? r = some n)
      (below : Forest s (refs n) ms) (rest : Forest s rs ns) : Forest s (r :: rs) (r :: (ms ++ ns))

namespace Forest

variable {s t : Store} {rs rs' ns ns' : List Ref}

theorem append (h : Forest s rs ns) (h' : Forest s rs' ns') :
    Forest s (rs ++ rs') (ns ++ ns') := by
  induction h with
  | nil => exact h'
  | cons node below _ _ ih =>
    rw [List.cons_append, List.cons_append, List.append_assoc]
    exact .cons node below ih

theorem mono (h : Forest s rs ns) (hst : ∀ r n, s.node? r = some n → t.node? r = some n) :
    Forest t rs ns := by
  induction h with
  | nil => exact .nil
  | cons node _ _ ihbelow ihrest => exact .cons (hst _ _ node) ihbelow ihrest

/-- Every node is a root or is kept in a slot of a node, and in one only. -/
theorem perm (h : Forest s rs ns) : ns.Perm (rs ++ ns.flatMap s.slots) := by
  induction h with
  | nil => exact .nil
  | @cons r n rs ms ns node _ _ ihbelow ihrest =>
    rw [List.flatMap_cons, List.flatMap_append, slots_eq node, List.cons_append]
    refine .cons r ?_
    calc ms ++ ns
      _ |>.Perm ((refs n ++ ms.flatMap s.slots) ++ (rs ++ ns.flatMap s.slots)) :=
        ihbelow.append ihrest
      _ |>.Perm (rs ++ ((refs n ++ ms.flatMap s.slots) ++ ns.flatMap s.slots)) :=
        List.perm_append_comm_assoc _ _ _
      _ = rs ++ (refs n ++ (ms.flatMap s.slots ++ ns.flatMap s.slots)) := by
        rw [List.append_assoc (refs n)]

theorem reached (h : Forest s rs ns) : ∀ m ∈ ns, ∃ r ∈ rs, ReflTransGen s.Refers r m := by
  induction h with
  | nil => exact fun m hm => absurd hm List.not_mem_nil
  | @cons r n rs ms ns node _ _ ihbelow ihrest =>
    intro m hm
    rcases List.mem_cons.1 hm with rfl | hm
    · exact ⟨m, List.mem_cons_self, .refl⟩
    rcases List.mem_append.1 hm with hm | hm
    · obtain ⟨c, hc, hcm⟩ := ihbelow m hm
      have hrefers : s.Refers r c := by rwa [Refers, slots_eq node]
      exact ⟨r, List.mem_cons_self, hcm.head hrefers⟩
    · obtain ⟨c, hc, hcm⟩ := ihrest m hm
      exact ⟨c, List.mem_cons_of_mem r hc, hcm⟩

theorem subset (h : Forest s rs ns) : rs ⊆ ns :=
  fun _ hr => h.perm.mem_iff.2 (List.mem_append_left _ hr)

/-- Going down from a node comes to an end. -/
theorem acc (h : Forest s rs ns) : ∀ m ∈ ns, Acc (Function.swap s.Refers) m := by
  induction h with
  | nil => exact fun m hm => absurd hm List.not_mem_nil
  | @cons r n rs ms ns node below _ ihbelow ihrest =>
    intro m hm
    rcases List.mem_cons.1 hm with rfl | hm
    · refine ⟨_, fun c hc => ihbelow c (below.subset ?_)⟩
      rwa [← slots_eq node]
    rcases List.mem_append.1 hm with hm | hm
    · exact ihbelow m hm
    · exact ihrest m hm

end Forest

theorem not_transGen_self {s : Store} {r : Ref} (h : Acc (Function.swap s.Refers) r) :
    ¬ TransGen s.Refers r r := by
  have hacc := h.transGen
  clear h
  rw [← transGen_swap]
  induction hacc with
  | intro r _ ih => exact fun hr => ih r hr hr

/-- A store whose nodes are those of the forest below its root. -/
theorem proper_of_forest {s : Store} {ns : List Ref} (hforest : Forest s s.roots ns)
    (hns : s.handles.Perm ns) : s.Proper := by
  have hmem : ∀ {r}, (s.node? r).isSome = true ↔ r ∈ ns := by
    intro r
    rw [← mem_handles, hns.mem_iff]
  have hnodup : (s.roots ++ ns.flatMap s.slots).Nodup :=
    hforest.perm.nodup_iff.1 (hns.nodup_iff.1 s.nodup_handles)
  have hslot : ∀ {p c}, s.Refers p c → c ∈ ns.flatMap s.slots := fun h =>
    List.mem_flatMap.2 ⟨_, hmem.1 (isSome_of_refers h), h⟩
  have hchild : ∀ {p c}, s.Refers p c → c ∈ ns := fun h =>
    hforest.perm.mem_iff.2 (List.mem_append_right _ (hslot h))
  have hreached : ∀ r, (s.node? r).isSome = true ↔ s.Reached r := by
    intro r
    refine ⟨fun h => hforest.reached r (hmem.1 h), ?_⟩
    rintro ⟨root, hroot, hr⟩
    rcases hr.cases_tail with rfl | ⟨p, -, hp⟩
    · exact hmem.2 (hforest.subset hroot)
    · exact hmem.2 (hchild hp)
  refine ⟨⟨fun r hr => hmem.2 (hforest.subset hr), fun p c h => hmem.2 (hchild h)⟩,
    fun r hr p h => ?_, fun r hr hroot => ?_, fun r h => ?_, hreached, ?_⟩
  · exact (List.nodup_append.1 hnodup).2.2 r hr r (hslot h) rfl
  · have hcount := (hns.trans hforest.perm).count_eq r
    rw [List.count_append, List.count_eq_zero_of_not_mem hroot, Nat.zero_add,
      List.count_eq_one_of_mem s.nodup_handles (mem_handles.2 hr)] at hcount
    rw [(hns.flatMap_right s.slots).count_eq, ← hcount]
  · obtain ⟨c, hc, -⟩ := TransGen.head'_iff.1 h
    exact not_transGen_self (hforest.acc r (hmem.1 (isSome_of_refers hc))) h
  · have hset : {r | s.Reached r} = (s.handles.toFinset : Set Ref) := by
      ext r
      rw [List.coe_toFinset, Set.mem_ofPred_eq, Set.mem_ofPred_eq, ← hreached, mem_handles]
    rw [hset, Set.ncard_coe_finset, List.toFinset_card_of_nodup s.nodup_handles, length_handles]

/-! ## Trees that are stored -/

/-- What storing a part of a tree does: what was found is found as before, and the new nodes are
those of a forest below the handles that come back. -/
structure Grows {ρ : Type} [HasRefs ρ] (m : Storing ρ) (s : Store) : Prop where
  keeps : ∀ r n, s.node? r = some n → (m s).2.node? r = some n
  adds : ∃ ns, Forest (m s).2 (refs (m s).1) ns ∧ (m s).2.handles.Perm (s.handles ++ ns)

theorem Built.grows {ρ : Type} [HasRefs ρ] {m : Storing ρ} (h : Built m) :
    ∀ s, Grows m s := by
  induction h with
  | pure x hrefs =>
    refine fun s => ⟨fun _ _ h => h, [], ?_, ?_⟩
    · rw [run_pure, hrefs]
      exact .nil
    · rw [run_pure, List.append_nil]
  | map wrap _ hrefs _ ih =>
    intro s
    obtain ⟨hkeeps, ns, hforest, hns⟩ := ih s
    refine ⟨hkeeps, ns, ?_, hns⟩
    rw [run_bind, run_pure, hrefs]
    exact hforest
  | @pair ρ σ _ _ m l _ _ ihm ihl =>
    intro s
    obtain ⟨hkeeps, ns, hforest, hns⟩ := ihm s
    obtain ⟨hkeeps', ns', hforest', hns'⟩ := ihl (m s).2
    refine ⟨fun r n h => hkeeps' r n (hkeeps r n h), ns ++ ns', ?_, ?_⟩
    · exact (hforest.mono hkeeps').append hforest'
    · rw [← List.append_assoc]
      exact hns'.trans (hns.append_right ns')
  | @node ρ _ m k build _ hrefs _ ih =>
    intro s
    obtain ⟨hkeeps, ns, hforest, hns⟩ := ih s
    have hput : ∀ r n, (m s).2.node? r = some n →
        (put k (build (m s).1) (m s).2).2.node? r = some n :=
      fun _ _ => node?_put_of_node? _
    refine ⟨fun r n h => hput r n (hkeeps r n h),
      ⟨k, (put k (build (m s).1) (m s).2).1⟩ :: ns, ?_, ?_⟩
    · rw [← List.append_nil ns]
      refine .cons (node?_put k _ _) ?_ .nil
      rw [hrefs]
      exact hforest.mono hput
    · exact ((handles_put k _ _).trans (hns.cons _)).trans List.perm_middle.symm

/-- A store that was filled holds one tree, whatever it held before. -/
theorem proper_load (s : Store) (tree : Option Expression) : (s.load tree).Proper := by
  have hnil : s.release.handles = [] := handles_eq_nil.2 s.nodeCount_release
  cases tree with
  | none =>
    have hforest : Forest (s.load none) (s.load none).roots [] := by
      rw [roots, root_load_none]
      exact .nil
    exact proper_of_forest hforest (hnil ▸ .nil)
  | some e =>
    obtain ⟨-, ns, hforest, hns⟩ := (storeExpression_built e).grows s.release
    rw [hnil, List.nil_append] at hns
    -- setting the root leaves all nodes as they are
    have hroot : ∀ r n, (storeExpression e s.release).2.node? r = some n →
        (s.load (some e)).node? r = some n := fun _ _ h => h
    exact proper_of_forest (hforest.mono hroot) hns

/-- A walk over a tree that was stored finds every node, however much fuel is left over. -/
theorem expressionAt?_load (s : Store) (e : Expression) {root : Handle NodeSort.expression}
    (hroot : (s.load (some e)).root = some root) {fuel : Nat}
    (hfuel : (s.load (some e)).reach ≤ fuel) :
    (s.load (some e)).expressionAt? fuel root = some e := by
  obtain rfl : (storeExpression e s.release).1 = root := Option.some.inj hroot
  refine (storeExpression_stores e).reads s.release _ fuel ?_ ?_
  · constructor <;> exact Arena.Extends.refl _
  · have hcount : (s.load (some e)).nodeCount = (storeExpression e s.release).2.nodeCount := rfl
    rw [reach, hcount] at hfuel
    omega

/-- A filter that was read into a store with 32 bits for an index is stored as a proper tree, if it
has no more nodes of a sort than there are indices: every handle leads to a node, every node but the
root has one parent, and the nodes are those that are reached from the root. So the walks over the
tree come to an end and find all nodes, and what is written, listed and resolved is that tree. -/
theorem reparse_proper (before : Store) (o : ParserOptions) (input : String) (store : Store)
    (h : before.reparse32 o input = .ok store) (hsize : ∀ k, (store.arena k).size ≤ UInt32.size) :
    store.Proper ∧
    ∀ root ∈ store.root, ∃ e : Expression,
      (∀ fuel, store.reach ≤ fuel → store.expressionAt? fuel root = some e) ∧
      (∀ q, store.render q = e.render q) ∧
      store.leaves = e.leaves ∧
      ∀ r : Resolver, r.resolve store = r.resolveTree (some e) := by
  obtain ⟨x, -, rfl⟩ := reparse_ok.1 ((reparse32_ok hsize).1 h)
  refine ⟨proper_load before x, fun root hroot => ?_⟩
  cases x with
  | none =>
    rw [root_load_none] at hroot
    cases hroot
  | some e =>
    refine ⟨e, fun fuel hfuel => expressionAt?_load before e hroot hfuel, fun q => ?_, ?_, ?_⟩
    · rw [render, tree?_load]
      rfl
    · rw [leaves_load]
      rfl
    · exact fun r => r.resolve_load before (some e)

/-- A filter with nodes of all ten sorts, read into a store that held another one. -/
theorem reparse_proper_all_sorts : ∃ before store root e,
    Store.empty.reparse32 {} "-x" = .ok before ∧
    before.reparse32 .allExtensions "a.b OR NOT (c) f(d, [1]) m = T\x7bk: v\x7d" = .ok store ∧
    (NodeSort.all.map fun k => (store.arena k).size) = [2, 2, 4, 5, 4, 1, 6, 1, 1, 1] ∧
    store.Proper ∧
    store.root = some root ∧
    (∀ fuel, store.reach ≤ fuel → store.expressionAt? fuel root = some e) ∧
    (∀ q, store.render q = e.render q) ∧
    store.leaves = e.leaves ∧
    ∀ r : Resolver, r.resolve store = r.resolveTree (some e) := by
  obtain ⟨before, hbefore, hnext⟩ := exists_of_toOption_any (Store.empty.reparse32 {} "-x")
    (fun before =>
      (before.reparse32 .allExtensions "a.b OR NOT (c) f(d, [1]) m = T\x7bk: v\x7d").toOption.any
        (fun store => decide (store.root.isSome = true ∧
          (NodeSort.all.map fun k => (store.arena k).size) =
            [2, 2, 4, 5, 4, 1, 6, 1, 1, 1])) = true)
    (by decide +kernel)
  obtain ⟨store, hstore, hroot, hsizes⟩ := exists_of_toOption_any _ _ hnext
  obtain ⟨root, hroot⟩ := Option.isSome_iff_exists.1 hroot
  have hsize (k : NodeSort) : (store.arena k).size ≤ UInt32.size := by
    have hmem : (store.arena k).size ∈ [2, 2, 4, 5, 4, 1, 6, 1, 1, 1] :=
      hsizes ▸ List.mem_map_of_mem k.mem_all
    have hall : ∀ n ∈ [2, 2, 4, 5, 4, 1, 6, 1, 1, 1], n ≤ UInt32.size := by decide
    exact hall _ hmem
  obtain ⟨hproper, hwalk⟩ := reparse_proper _ _ _ _ hstore hsize
  obtain ⟨e, hwalk⟩ := hwalk root hroot
  exact ⟨before, store, root, e, hbefore, hstore, hsizes, hproper, hroot, hwalk⟩

end ListQuery.Filter.Store
