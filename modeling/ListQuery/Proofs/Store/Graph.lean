/-
A store as a graph. Its nodes are the items of all arenas, whatever their sort (`Store.node?`), and
each keeps handles of others (`HasRefs.refs`). All that storing a tree does is put together of four
kinds of steps (`Store.Built`), so what these keep is kept by the storing of every tree.
-/
import Mathlib.Data.List.Nodup
import Mathlib.Data.Sigma.Basic
import ListQuery.Proofs.Store.Load

namespace ListQuery

namespace Arena

variable {τ : Type} {tag : τ} {α : Type}

/-- The handles of all items. -/
def handles (a : Arena tag α) : List (Handle tag) :=
  (List.range a.size).map fun i => ⟨i, a.generation⟩

theorem length_handles (a : Arena tag α) : a.handles.length = a.size := by
  rw [handles, List.length_map, List.length_range]

theorem nodup_handles (a : Arena tag α) : a.handles.Nodup :=
  List.nodup_range.map fun _ _ h => congrArg Handle.index h

theorem mem_handles {a : Arena tag α} {h : Handle tag} :
    h ∈ a.handles ↔ (a.get? h).isSome = true := by
  obtain ⟨index, generation⟩ := h
  unfold handles get? size
  by_cases hg : generation = a.generation
  · simp [hg]
  · simp [hg, Ne.symm hg]

theorem handles_alloc (a : Arena tag α) (item : α) :
    (a.alloc item).2.handles = a.handles ++ [(a.alloc item).1] := by
  rw [handles, size_alloc, List.range_succ, List.map_append]
  rfl

theorem alloc_not_mem_handles (a : Arena tag α) (item : α) : (a.alloc item).1 ∉ a.handles := by
  simp [handles, alloc]

end Arena

namespace Filter

/-- A handle to a node of some sort. -/
abbrev Ref := (k : NodeSort) × Handle k

namespace NodeSort

open Store in
/-- What a node of this sort is. -/
def Node : NodeSort → Type
  | expression => ExpressionNode
  | sequence => SequenceNode
  | factor => FactorNode
  | term => TermNode
  | restriction => RestrictionNode
  | composite => CompositeNode
  | member => Member
  | call => CallNode
  | struct => StructNode
  | array => ArrayNode

def all : List NodeSort :=
  [expression, sequence, factor, term, restriction, composite, member, call, struct, array]

theorem mem_all (k : NodeSort) : k ∈ all := by cases k <;> decide

end NodeSort

namespace Store

/-- The nodes of a sort. -/
def arena (s : Store) : (k : NodeSort) → Arena k k.Node
  | .expression => s.expressions
  | .sequence => s.sequences
  | .factor => s.factors
  | .term => s.terms
  | .restriction => s.restrictions
  | .composite => s.composites
  | .member => s.members
  | .call => s.calls
  | .struct => s.structs
  | .array => s.arrays

/-- The node behind a handle. -/
def node? (s : Store) (r : Ref) : Option r.1.Node := (s.arena r.1).get? r.2

/-- The handles of all nodes. -/
def handles (s : Store) : List Ref :=
  NodeSort.all.flatMap fun k => (s.arena k).handles.map (Sigma.mk k)

theorem mem_handles {s : Store} {r : Ref} : r ∈ s.handles ↔ (s.node? r).isSome = true := by
  rw [node?, ← Arena.mem_handles]
  simp only [handles, List.mem_flatMap, List.mem_map]
  constructor
  · rintro ⟨k, -, h, hmem, rfl⟩
    exact hmem
  · exact fun hmem => ⟨r.1, r.1.mem_all, r.2, hmem, rfl⟩

theorem nodup_handles (s : Store) : s.handles.Nodup := by
  refine List.nodup_flatMap.2 ⟨fun k _ => ?_, ?_⟩
  · exact (s.arena k).nodup_handles.map sigma_mk_injective
  · have hall : NodeSort.all.Nodup := by decide
    refine hall.imp fun {k l} hne r hk hl => hne ?_
    obtain ⟨_, -, rfl⟩ := List.mem_map.1 hk
    obtain ⟨_, -, h⟩ := List.mem_map.1 hl
    exact congrArg Sigma.fst h.symm

theorem length_handles (s : Store) : s.handles.length = s.nodeCount := by
  simp only [handles, NodeSort.all, List.flatMap_cons, List.flatMap_nil, List.length_append,
    List.length_map, List.length_nil, Arena.length_handles, nodeCount, Nat.add_assoc]
  rfl

theorem handles_eq_nil {s : Store} : s.handles = [] ↔ s.nodeCount = 0 := by
  rw [← s.length_handles, List.length_eq_zero_iff]

end Store

/-! ## Handles that are kept -/

/-- Data with handles in it. -/
class HasRefs (ρ : Type) where
  /-- The handles, in the order in which they are kept. -/
  refs : ρ → List Ref
  /-- The same with all handles of one generation. -/
  renew : UInt32 → ρ → ρ

open HasRefs

instance (k : NodeSort) : HasRefs (Handle k) where
  refs h := [⟨k, h⟩]
  renew g h := ⟨h.index, g⟩

instance {ρ : Type} [HasRefs ρ] : HasRefs (List ρ) where
  refs rs := rs.flatMap refs
  renew g rs := rs.map (renew g)

instance {ρ σ : Type} [HasRefs ρ] [HasRefs σ] : HasRefs (ρ × σ) where
  refs r := refs r.1 ++ refs r.2
  renew g r := (renew g r.1, renew g r.2)

instance : HasRefs Leaf where
  refs _ := []
  renew _ l := l

instance : HasRefs Member where
  refs _ := []
  renew _ m := m

namespace Store

instance : HasRefs ComparableRef where
  refs
    | .member h => refs h
    | .call h => refs h
    | .struct h => refs h
    | .array h => refs h
  renew g
    | .member h => .member (renew g h)
    | .call h => .call (renew g h)
    | .struct h => .struct (renew g h)
    | .array h => .array (renew g h)

instance : HasRefs ArgRef where
  refs
    | .composite h => refs h
    | .comparable c => refs c
  renew g
    | .composite h => .composite (renew g h)
    | .comparable c => .comparable (renew g c)

instance : HasRefs SimpleRef where
  refs
    | .restriction h => refs h
    | .composite h => refs h
  renew g
    | .restriction h => .restriction (renew g h)
    | .composite h => .composite (renew g h)

instance : HasRefs ComparisonRef where
  refs c := refs c.arg
  renew g c := { c with arg := renew g c.arg }

instance : HasRefs ExpressionNode where
  refs n := refs n.sequences
  renew g n := { n with sequences := renew g n.sequences }

instance : HasRefs SequenceNode where
  refs n := refs n.factors
  renew g n := { n with factors := renew g n.factors }

instance : HasRefs FactorNode where
  refs n := refs n.terms
  renew g n := { n with terms := renew g n.terms }

instance : HasRefs TermNode where
  refs n := refs n.simple
  renew g n := { n with simple := renew g n.simple }

instance : HasRefs RestrictionNode where
  refs n := refs n.comparable ++ n.comparison.elim [] refs
  renew g n :=
    { n with comparable := renew g n.comparable, comparison := n.comparison.map (renew g) }

instance : HasRefs CompositeNode where
  refs n := refs n.expression
  renew g n := { n with expression := renew g n.expression }

instance : HasRefs CallNode where
  refs n := refs n.args
  renew g n := { n with args := renew g n.args }

instance : HasRefs StructNode where
  refs n := refs n.entries
  renew g n := { n with entries := renew g n.entries }

instance : HasRefs ArrayNode where
  refs n := refs n.elements
  renew g n := { n with elements := renew g n.elements }

instance : (k : NodeSort) → HasRefs k.Node
  | .expression => inferInstanceAs (HasRefs ExpressionNode)
  | .sequence => inferInstanceAs (HasRefs SequenceNode)
  | .factor => inferInstanceAs (HasRefs FactorNode)
  | .term => inferInstanceAs (HasRefs TermNode)
  | .restriction => inferInstanceAs (HasRefs RestrictionNode)
  | .composite => inferInstanceAs (HasRefs CompositeNode)
  | .member => inferInstanceAs (HasRefs Member)
  | .call => inferInstanceAs (HasRefs CallNode)
  | .struct => inferInstanceAs (HasRefs StructNode)
  | .array => inferInstanceAs (HasRefs ArrayNode)

/-- Stores a node of any sort. -/
def put : (k : NodeSort) → k.Node → Storing (Handle k)
  | .expression => putExpression
  | .sequence => putSequence
  | .factor => putFactor
  | .term => putTerm
  | .restriction => putRestriction
  | .composite => putComposite
  | .member => putMember
  | .call => putCall
  | .struct => putStruct
  | .array => putArray

theorem put_handle (k : NodeSort) (n : k.Node) (s : Store) :
    (put k n s).1 = ((s.arena k).alloc n).1 := by
  cases k <;> rfl

theorem arena_put (k : NodeSort) (n : k.Node) (s : Store) :
    (put k n s).2.arena k = ((s.arena k).alloc n).2 := by
  cases k <;> rfl

theorem arena_put_of_ne {k l : NodeSort} (h : l ≠ k) (n : k.Node) (s : Store) :
    (put k n s).2.arena l = s.arena l := by
  cases k <;> cases l <;> first | rfl | exact absurd rfl h

theorem node?_put (k : NodeSort) (n : k.Node) (s : Store) :
    (put k n s).2.node? ⟨k, (put k n s).1⟩ = some n := by
  rw [node?, arena_put, put_handle]
  exact Arena.get?_alloc_self _ n

theorem mem_handles_put {k : NodeSort} {n : k.Node} {s : Store} {r : Ref} :
    r ∈ (put k n s).2.handles ↔ r ∈ s.handles ∨ r = ⟨k, (put k n s).1⟩ := by
  obtain ⟨l, h⟩ := r
  rw [mem_handles, mem_handles, node?, node?, ← Arena.mem_handles, ← Arena.mem_handles]
  by_cases hl : l = k
  · subst hl
    rw [arena_put, Arena.handles_alloc, put_handle]
    simp
  · rw [arena_put_of_ne hl]
    have hne : (⟨l, h⟩ : Ref) ≠ ⟨k, (put k n s).1⟩ := fun he => hl (congrArg Sigma.fst he)
    simp [hne]

theorem put_not_mem_handles (k : NodeSort) (n : k.Node) (s : Store) :
    ⟨k, (put k n s).1⟩ ∉ s.handles := by
  rw [mem_handles, node?, ← Arena.mem_handles, put_handle]
  exact Arena.alloc_not_mem_handles _ n

/-- There is one node more than before. -/
theorem handles_put (k : NodeSort) (n : k.Node) (s : Store) :
    (put k n s).2.handles.Perm (⟨k, (put k n s).1⟩ :: s.handles) := by
  rw [List.perm_ext_iff_of_nodup (nodup_handles _)
    (List.nodup_cons.2 ⟨put_not_mem_handles k n s, s.nodup_handles⟩)]
  intro r
  rw [mem_handles_put, List.mem_cons, or_comm]

/-- What was found is found as before. -/
theorem node?_put_of_node? {k : NodeSort} (n : k.Node) {s : Store} {r : Ref} {x : r.1.Node}
    (h : s.node? r = some x) : (put k n s).2.node? r = some x := by
  obtain ⟨l, i⟩ := r
  unfold node? at h ⊢
  by_cases hl : l = k
  · subst hl
    rw [arena_put]
    exact Arena.get?_alloc_of_get? n h
  · rwa [arena_put_of_ne hl]

/-! ## Storing a tree -/

/-- The steps that storing a tree is made of: what holds no handle is given as it is, what has been
stored is wrapped or paired, and a node is stored that keeps the handles stored before it. -/
inductive Built : {ρ : Type} → [HasRefs ρ] → Storing ρ → Prop where
  | pure {ρ : Type} [HasRefs ρ] (x : ρ) (hrefs : refs x = []) (hrenew : ∀ g, renew g x = x) :
    Built (pure x)
  | map {ρ σ : Type} [HasRefs ρ] [HasRefs σ] {m : Storing ρ} (wrap : ρ → σ) (hm : Built m)
      (hrefs : ∀ r, refs (wrap r) = refs r) (hrenew : ∀ g r, renew g (wrap r) = wrap (renew g r)) :
    Built (do return wrap (← m))
  | pair {ρ σ : Type} [HasRefs ρ] [HasRefs σ] {m : Storing ρ} {l : Storing σ} (hm : Built m)
      (hl : Built l) : Built (do return (← m, ← l))
  | node {ρ : Type} [HasRefs ρ] {m : Storing ρ} (k : NodeSort) (build : ρ → k.Node) (hm : Built m)
      (hrefs : ∀ r, refs (build r) = refs r)
      (hrenew : ∀ g r, renew g (build r) = build (renew g r)) :
    Built (do put k (build (← m)))

namespace Built

variable {ρ : Type} [HasRefs ρ]

theorem nil : Built (Pure.pure [] : Storing (List ρ)) := .pure [] rfl fun _ => rfl

theorem cons {m : Storing ρ} {ms : Storing (List ρ)} (hm : Built m) (hms : Built ms) :
    Built (do return (← m) :: (← ms)) :=
  .map (fun r : ρ × List ρ => r.1 :: r.2) (.pair hm hms) (fun _ => rfl) fun _ _ => rfl

end Built

mutual

theorem storeExpression_built : ∀ e, Built (storeExpression e)
  | ⟨span, ss⟩ =>
    .node .expression (⟨span, ·⟩) (storeSequences_built ss) (fun _ => rfl) fun _ _ => rfl

theorem storeSequences_built : ∀ ss, Built (storeSequences ss)
  | [] => .nil
  | s :: ss => .cons (storeSequence_built s) (storeSequences_built ss)

theorem storeSequence_built : ∀ s, Built (storeSequence s)
  | ⟨span, fs⟩ => .node .sequence (⟨span, ·⟩) (storeFactors_built fs) (fun _ => rfl) fun _ _ => rfl

theorem storeFactors_built : ∀ fs, Built (storeFactors fs)
  | [] => .nil
  | f :: fs => .cons (storeFactor_built f) (storeFactors_built fs)

theorem storeFactor_built : ∀ f, Built (storeFactor f)
  | ⟨span, ts⟩ => .node .factor (⟨span, ·⟩) (storeTerms_built ts) (fun _ => rfl) fun _ _ => rfl

theorem storeTerms_built : ∀ ts, Built (storeTerms ts)
  | [] => .nil
  | t :: ts => .cons (storeTerm_built t) (storeTerms_built ts)

theorem storeTerm_built : ∀ t, Built (storeTerm t)
  | ⟨span, unary, simple, orPos⟩ =>
    .node .term (⟨span, unary, ·, orPos⟩) (storeSimple_built simple) (fun _ => rfl) fun _ _ => rfl

theorem storeSimple_built : ∀ x, Built (storeSimple x)
  | .restriction r =>
    .map SimpleRef.restriction (storeRestriction_built r) (fun _ => rfl) fun _ _ => rfl
  | .composite c => .map SimpleRef.composite (storeComposite_built c) (fun _ => rfl) fun _ _ => rfl

theorem storeRestriction_built : ∀ r, Built (storeRestriction r)
  | ⟨span, c, none⟩ =>
    .node .restriction (⟨span, ·, none⟩) (storeComparable_built c)
      (fun _ => List.append_nil _) fun _ _ => rfl
  | ⟨span, c, some x⟩ =>
    .node .restriction (fun r : ComparableRef × ComparisonRef => ⟨span, r.1, some r.2⟩)
      (.pair (storeComparable_built c) (storeComparison_built x)) (fun _ => rfl) fun _ _ => rfl

theorem storeComparison_built : ∀ c, Built (storeComparison c)
  | ⟨comparator, pos, arg⟩ =>
    .map (ComparisonRef.mk comparator pos) (storeArg_built arg) (fun _ => rfl) fun _ _ => rfl

theorem storeComposite_built : ∀ c, Built (storeComposite c)
  | ⟨span, e⟩ =>
    .node .composite (⟨span, ·⟩) (storeExpression_built e) (fun _ => rfl) fun _ _ => rfl

theorem storeComparable_built : ∀ c, Built (storeComparable c)
  | .member m =>
    .map ComparableRef.member
      (.node .member id (.pure m rfl fun _ => rfl) (fun _ => rfl) fun _ _ => rfl)
      (fun _ => rfl) fun _ _ => rfl
  | .call c => .map ComparableRef.call (storeCall_built c) (fun _ => rfl) fun _ _ => rfl
  | .struct s => .map ComparableRef.struct (storeStruct_built s) (fun _ => rfl) fun _ _ => rfl
  | .array a => .map ComparableRef.array (storeArray_built a) (fun _ => rfl) fun _ _ => rfl

theorem storeArg_built : ∀ a, Built (storeArg a)
  | .composite c => .map ArgRef.composite (storeComposite_built c) (fun _ => rfl) fun _ _ => rfl
  | .comparable c => .map ArgRef.comparable (storeComparable_built c) (fun _ => rfl) fun _ _ => rfl

theorem storeArgs_built : ∀ as, Built (storeArgs as)
  | [] => .nil
  | a :: as => .cons (storeArg_built a) (storeArgs_built as)

theorem storeCall_built : ∀ c, Built (storeCall c)
  | ⟨span, name, args⟩ =>
    .node .call (⟨span, name, ·⟩) (storeArgs_built args) (fun _ => rfl) fun _ _ => rfl

theorem storeStruct_built : ∀ s, Built (storeStruct s)
  | ⟨span, name, entries⟩ =>
    .node .struct (⟨span, name, ·⟩) (storeEntries_built entries) (fun _ => rfl) fun _ _ => rfl

theorem storeEntries_built : ∀ es, Built (storeEntries es)
  | [] => .nil
  | e :: es => .cons (storeEntry_built e) (storeEntries_built es)

theorem storeEntry_built : ∀ e, Built (storeEntry e)
  | ⟨name, value⟩ => .map (name, ·) (storeComparable_built value) (fun _ => rfl) fun _ _ => rfl

theorem storeArray_built : ∀ a, Built (storeArray a)
  | ⟨span, elements⟩ =>
    .node .array (⟨span, ·⟩) (storeElements_built elements) (fun _ => rfl) fun _ _ => rfl

theorem storeElements_built : ∀ cs, Built (storeElements cs)
  | [] => .nil
  | c :: cs => .cons (storeComparable_built c) (storeElements_built cs)

end

end Store

end Filter

end ListQuery
