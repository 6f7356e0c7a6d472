/-
A stored tree is read back as it was. Storing only ever adds nodes, so what a handle leads to once
it leads to ever after; and each node on the way down takes at most two steps of the fuel, one for
the node and one for a reference to it.
-/
import ListQuery.Filter.Store

namespace ListQuery

/-- Every item of one arena is found in another by the same handle. -/
def Arena.Extends {τ : Type} {tag : τ} {α : Type} (a b : Arena tag α) : Prop :=
  ∀ h x, a.get? h = some x → b.get? h = some x

theorem Arena.Extends.refl {τ : Type} {tag : τ} {α : Type} (a : Arena tag α) : a.Extends a :=
  fun _ _ hx => hx

theorem Arena.Extends.trans {τ : Type} {tag : τ} {α : Type} {a b c : Arena tag α}
    (hab : a.Extends b) (hbc : b.Extends c) : a.Extends c :=
  fun h x hx => hbc h x (hab h x hx)

theorem Arena.extends_alloc {τ : Type} {tag : τ} {α : Type} (a : Arena tag α) (item : α) :
    a.Extends (a.alloc item).2 :=
  fun _ _ hx => get?_alloc_of_get? item hx

theorem Arena.size_alloc {τ : Type} {tag : τ} {α : Type} (a : Arena tag α) (item : α) :
    (a.alloc item).2.size = a.size + 1 := by
  simp [alloc, size]

end ListQuery

namespace ListQuery.Filter.Store

/-- Every node of one store is found in another by the same handle. -/
structure Extends (s t : Store) : Prop where
  expressions : s.expressions.Extends t.expressions
  sequences : s.sequences.Extends t.sequences
  factors : s.factors.Extends t.factors
  terms : s.terms.Extends t.terms
  restrictions : s.restrictions.Extends t.restrictions
  composites : s.composites.Extends t.composites
  members : s.members.Extends t.members
  calls : s.calls.Extends t.calls
  structs : s.structs.Extends t.structs
  arrays : s.arrays.Extends t.arrays

theorem Extends.refl (s : Store) : s.Extends s := by
  constructor <;> exact Arena.Extends.refl _

theorem Extends.trans {s t u : Store} (hst : s.Extends t) (htu : t.Extends u) : s.Extends u where
  expressions := hst.expressions.trans htu.expressions
  sequences := hst.sequences.trans htu.sequences
  factors := hst.factors.trans htu.factors
  terms := hst.terms.trans htu.terms
  restrictions := hst.restrictions.trans htu.restrictions
  composites := hst.composites.trans htu.composites
  members := hst.members.trans htu.members
  calls := hst.calls.trans htu.calls
  structs := hst.structs.trans htu.structs
  arrays := hst.arrays.trans htu.arrays

/-- What storing one node does: all others stay, there is one more, and the handle leads to it. -/
structure Adds {tag : NodeSort} {ν : Type} (put : Storing (Handle tag))
    (arena : Store → Arena tag ν) (n : ν) : Prop where
  keeps : ∀ s : Store, s.Extends (put s).2
  counts : ∀ s : Store, (put s).2.nodeCount = s.nodeCount + 1
  finds : ∀ s : Store, (arena (put s).2).get? (put s).1 = some n

theorem putExpression_adds (n : ExpressionNode) : Adds (putExpression n) expressions n where
  keeps s := { Extends.refl s with expressions := Arena.extends_alloc _ n }
  counts s := by simp only [putExpression, nodeCount, Arena.size_alloc]; omega
  finds s := Arena.get?_alloc_self _ n

theorem putSequence_adds (n : SequenceNode) : Adds (putSequence n) sequences n where
  keeps s := { Extends.refl s with sequences := Arena.extends_alloc _ n }
  counts s := by simp only [putSequence, nodeCount, Arena.size_alloc]; omega
  finds s := Arena.get?_alloc_self _ n

theorem putFactor_adds (n : FactorNode) : Adds (putFactor n) factors n where
  keeps s := { Extends.refl s with factors := Arena.extends_alloc _ n }
  counts s := by simp only [putFactor, nodeCount, Arena.size_alloc]; omega
  finds s := Arena.get?_alloc_self _ n

theorem putTerm_adds (n : TermNode) : Adds (putTerm n) terms n where
  keeps s := { Extends.refl s with terms := Arena.extends_alloc _ n }
  counts s := by simp only [putTerm, nodeCount, Arena.size_alloc]; omega
  finds s := Arena.get?_alloc_self _ n

theorem putRestriction_adds (n : RestrictionNode) : Adds (putRestriction n) restrictions n where
  keeps s := { Extends.refl s with restrictions := Arena.extends_alloc _ n }
  counts s := by simp only [putRestriction, nodeCount, Arena.size_alloc]; omega
  finds s := Arena.get?_alloc_self _ n

theorem putComposite_adds (n : CompositeNode) : Adds (putComposite n) composites n where
  keeps s := { Extends.refl s with composites := Arena.extends_alloc _ n }
  counts s := by simp only [putComposite, nodeCount, Arena.size_alloc]; omega
  finds s := Arena.get?_alloc_self _ n

theorem putMember_adds (n : Member) : Adds (putMember n) members n where
  keeps s := { Extends.refl s with members := Arena.extends_alloc _ n }
  counts s := by simp only [putMember, nodeCount, Arena.size_alloc]; omega
  finds s := Arena.get?_alloc_self _ n

theorem putCall_adds (n : CallNode) : Adds (putCall n) calls n where
  keeps s := { Extends.refl s with calls := Arena.extends_alloc _ n }
  counts s := by simp only [putCall, nodeCount, Arena.size_alloc]; omega
  finds s := Arena.get?_alloc_self _ n

theorem putStruct_adds (n : StructNode) : Adds (putStruct n) structs n where
  keeps s := { Extends.refl s with structs := Arena.extends_alloc _ n }
  counts s := by simp only [putStruct, nodeCount, Arena.size_alloc]; omega
  finds s := Arena.get?_alloc_self _ n

theorem putArray_adds (n : ArrayNode) : Adds (putArray n) arrays n where
  keeps s := { Extends.refl s with arrays := Arena.extends_alloc _ n }
  counts s := by simp only [putArray, nodeCount, Arena.size_alloc]; omega
  finds s := Arena.get?_alloc_self _ n

/-! ## Steps that store a part of a tree -/

/-- A step that stores `x`: it only adds nodes, and every later store gives `x` back, with two steps
of fuel for each node that was added. Where at least one node is added for sure, one step can be
spared. -/
structure Stores {ρ β : Type} (m : Storing ρ) (read : Store → Nat → ρ → Option β) (spare : Nat)
    (x : β) : Prop where
  keeps : ∀ s : Store, s.Extends (m s).2
  grows : ∀ s : Store, s.nodeCount + spare ≤ (m s).2.nodeCount
  reads : ∀ (s t : Store) (fuel : Nat), (m s).2.Extends t →
    2 * (m s).2.nodeCount ≤ fuel + 2 * s.nodeCount + spare → read t fuel (m s).1 = some x

section

variable {ρ σ β γ : Type} {m : Storing ρ} {k : Storing σ} {read : Store → Nat → ρ → Option β}
  {spare : Nat} {x : β} {y : γ}

theorem run_bind (m : Storing ρ) (f : ρ → Storing σ) (s : Store) :
    (m >>= f) s = f (m s).1 (m s).2 := rfl

theorem run_pure (r : ρ) (s : Store) : (pure r : Storing ρ) s = (r, s) := rfl

theorem Stores.unspare (h : Stores m read 1 x) : Stores m read 0 x where
  keeps := h.keeps
  grows s := Nat.le_of_succ_le (h.grows s)
  reads s t fuel hst hfuel := h.reads s t fuel hst (by omega)

/-- A reference to what a step stores. -/
theorem Stores.map (h : Stores m read spare x) (wrap : ρ → σ)
    {read' : Store → Nat → σ → Option γ}
    (hread : ∀ t fuel r, read t fuel r = some x → read' t fuel (wrap r) = some y) :
    Stores (do return wrap (← m)) read' spare y where
  keeps s := by simpa only [run_bind, run_pure] using h.keeps s
  grows s := by simpa only [run_bind, run_pure] using h.grows s
  reads s t fuel hst hfuel := by
    simp only [run_bind, run_pure] at hst hfuel ⊢
    exact hread t fuel _ (h.reads s t fuel hst hfuel)

/-- Following a reference takes a step of its own. -/
theorem Stores.refer (h : Stores m read 1 x) (wrap : ρ → σ)
    {read' : Store → Nat → σ → Option γ}
    (hread : ∀ t fuel r, read t fuel r = some x → read' t (fuel + 1) (wrap r) = some y) :
    Stores (do return wrap (← m)) read' 0 y where
  keeps s := by simpa only [run_bind, run_pure] using h.keeps s
  grows s := by simpa only [run_bind, run_pure] using h.unspare.grows s
  reads s t fuel hst hfuel := by
    simp only [run_bind, run_pure] at hst hfuel ⊢
    have hgrows := h.grows s
    obtain ⟨fuel, rfl⟩ : ∃ n, fuel = n + 1 := ⟨fuel - 1, by omega⟩
    exact hread t fuel _ (h.reads s t fuel hst (by omega))

theorem Stores.pair {read' : Store → Nat → σ → Option γ} (hm : Stores m read 0 x)
    (hk : Stores k read' 0 y) :
    Stores (do return (← m, ← k))
      (fun t fuel r => do return (← read t fuel r.1, ← read' t fuel r.2)) 0 (x, y) where
  keeps s := by
    simp only [run_bind, run_pure]
    exact (hm.keeps s).trans (hk.keeps _)
  grows s := by
    have hgrows := hm.grows s
    have hgrows' := hk.grows (m s).2
    simp only [run_bind, run_pure]
    omega
  reads s t fuel hst hfuel := by
    simp only [run_bind, run_pure] at hst hfuel ⊢
    have hgrows := hm.grows s
    have hgrows' := hk.grows (m s).2
    have hx := hm.reads s t fuel ((hk.keeps _).trans hst) (by omega)
    have hy := hk.reads (m s).2 t fuel hst (by omega)
    simp only [hx, hy, Option.bind_eq_bind, Option.bind_some, Option.pure_def]

/-- What a node holds besides its children. -/
theorem stores_pure (x : β) : Stores (pure x) (fun _ _ r => some r) 0 x where
  keeps := Extends.refl
  grows _ := Nat.le_refl _
  reads _ _ _ _ _ := rfl

theorem stores_nil {read : Store → Nat → ρ → Option β} :
    Stores (pure []) (fun t fuel r => r.mapM (read t fuel)) 0 [] where
  keeps := Extends.refl
  grows _ := Nat.le_refl _
  reads _ _ _ _ _ := rfl

theorem stores_cons {m : Storing ρ} {ms : Storing (List ρ)} {xs : List β}
    (hm : Stores m read 0 x) (hms : Stores ms (fun t fuel r => r.mapM (read t fuel)) 0 xs) :
    Stores (do return (← m) :: (← ms)) (fun t fuel r => r.mapM (read t fuel)) 0 (x :: xs) := by
  refine (hm.pair hms).map (fun r => r.1 :: r.2) ?_
  rintro t fuel ⟨r, rs⟩ h
  simp only [Option.bind_eq_bind, Option.bind_eq_some_iff, Option.pure_def, Option.some.injEq,
    Prod.mk.injEq] at h
  obtain ⟨_, hr, _, hrs, rfl, rfl⟩ := h
  simp only [List.mapM_cons, hr, hrs, Option.bind_eq_bind, Option.bind_some, Option.pure_def]

/-- A node whose children have been stored. -/
theorem Stores.node {tag : NodeSort} {ν : Type} {put : ν → Storing (Handle tag)}
    {arena : Store → Arena tag ν} (hput : ∀ n, Adds (put n) arena n)
    (harena : ∀ s t : Store, s.Extends t → (arena s).Extends (arena t))
    (h : Stores m read 0 x) (build : ρ → ν) (wrap : Handle tag → σ)
    {read' : Store → Nat → σ → Option γ}
    (hread : ∀ t fuel i r, (arena t).get? i = some (build r) → read t fuel r = some x →
      read' t (fuel + 1) (wrap i) = some y) :
    Stores (do return wrap (← put (build (← m)))) read' 1 y where
  keeps s := by
    simp only [run_bind, run_pure]
    exact (h.keeps s).trans ((hput _).keeps _)
  grows s := by
    have hcount := (hput (build (m s).1)).counts (m s).2
    have hgrows := h.grows s
    simp only [run_bind, run_pure]
    omega
  reads s t fuel hst hfuel := by
    simp only [run_bind, run_pure] at hst hfuel ⊢
    have hcount := (hput (build (m s).1)).counts (m s).2
    have hgrows := h.grows s
    -- the node takes one step of fuel, and the two that it is worth leave the children theirs
    obtain ⟨fuel, rfl⟩ : ∃ n, fuel = n + 1 := ⟨fuel - 1, by omega⟩
    have hfinds := harena _ _ hst _ _ ((hput (build (m s).1)).finds (m s).2)
    have hx := h.reads s t fuel (((hput _).keeps _).trans hst) (by omega)
    exact hread t fuel _ _ hfinds hx

end

/-! ## Whole trees -/

/-- What a reference in a term leads to. -/
def simpleAt? (s : Store) (fuel : Nat) : SimpleRef → Option Simple
  | .restriction r => (s.restrictionAt? fuel r).map Simple.restriction
  | .composite c => (s.compositeAt? fuel c).map Simple.composite

/-- The comparison of a restriction, its argument followed. -/
def comparisonAt? (s : Store) (fuel : Nat) (c : ComparisonRef) : Option Comparison :=
  (s.argAt? fuel c.arg).map fun arg => ⟨c.comparator, c.pos, arg⟩

/-- An entry of a struct literal, its value followed. -/
def entryAt? (s : Store) (fuel : Nat) (e : Leaf × ComparableRef) : Option StructEntry :=
  (s.comparableAt? fuel e.2).map fun v => ⟨e.1, v⟩

mutual

theorem storeExpression_stores : ∀ e, Stores (storeExpression e) expressionAt? 1 e
  | ⟨span, ss⟩ => by
    refine Stores.node putExpression_adds (fun _ _ h => h.expressions)
      (storeSequences_stores ss) (⟨span, ·⟩) id ?_
    intro t fuel i r hi hr
    simp only [id, expressionAt?, hi, hr, Option.bind_eq_bind, Option.bind_some, Option.pure_def]

theorem storeSequences_stores : ∀ ss,
    Stores (storeSequences ss) (fun t fuel r => r.mapM (t.sequenceAt? fuel)) 0 ss
  | [] => stores_nil
  | s :: ss => stores_cons (storeSequence_stores s).unspare (storeSequences_stores ss)

theorem storeSequence_stores : ∀ s, Stores (storeSequence s) sequenceAt? 1 s
  | ⟨span, fs⟩ => by
    refine Stores.node putSequence_adds (fun _ _ h => h.sequences)
      (storeFactors_stores fs) (⟨span, ·⟩) id ?_
    intro t fuel i r hi hr
    simp only [id, sequenceAt?, hi, hr, Option.bind_eq_bind, Option.bind_some, Option.pure_def]

theorem storeFactors_stores : ∀ fs,
    Stores (storeFactors fs) (fun t fuel r => r.mapM (t.factorAt? fuel)) 0 fs
  | [] => stores_nil
  | f :: fs => stores_cons (storeFactor_stores f).unspare (storeFactors_stores fs)

theorem storeFactor_stores : ∀ f, Stores (storeFactor f) factorAt? 1 f
  | ⟨span, ts⟩ => by
    refine Stores.node putFactor_adds (fun _ _ h => h.factors)
      (storeTerms_stores ts) (⟨span, ·⟩) id ?_
    intro t fuel i r hi hr
    simp only [id, factorAt?, hi, hr, Option.bind_eq_bind, Option.bind_some, Option.pure_def]

theorem storeTerms_stores : ∀ ts,
    Stores (storeTerms ts) (fun t fuel r => r.mapM (t.termAt? fuel)) 0 ts
  | [] => stores_nil
  | t :: ts => stores_cons (storeTerm_stores t).unspare (storeTerms_stores ts)

theorem storeTerm_stores : ∀ t, Stores (storeTerm t) termAt? 1 t
  | ⟨span, unary, simple, orPos⟩ => by
    refine Stores.node putTerm_adds (fun _ _ h => h.terms)
      (storeSimple_stores simple).unspare (⟨span, unary, ·, orPos⟩) id ?_
    intro t fuel i r hi hr
    cases r with
    | restriction r | composite r =>
      simp only [simpleAt?] at hr
      simp only [id, termAt?, hi, hr, Option.bind_eq_bind, Option.bind_some, Option.pure_def]

theorem storeSimple_stores : ∀ x, Stores (storeSimple x) simpleAt? 1 x
  | .restriction r => (storeRestriction_stores r).map SimpleRef.restriction fun _ _ _ h => by
    simp only [simpleAt?, h, Option.map_some]
  | .composite c => (storeComposite_stores c).map SimpleRef.composite fun _ _ _ h => by
    simp only [simpleAt?, h, Option.map_some]

theorem storeRestriction_stores : ∀ r, Stores (storeRestriction r) restrictionAt? 1 r
  | ⟨span, c, none⟩ => by
    refine Stores.node putRestriction_adds (fun _ _ h => h.restrictions)
      (storeComparable_stores c).unspare (⟨span, ·, none⟩) id ?_
    intro t fuel i r hi hr
    simp only [id, restrictionAt?, hi, hr, Option.bind_eq_bind, Option.bind_some, Option.pure_def]
  | ⟨span, c, some x⟩ => by
    refine Stores.node putRestriction_adds (fun _ _ h => h.restrictions)
      ((storeComparable_stores c).unspare.pair (storeComparison_stores x))
      (fun r => ⟨span, r.1, some r.2⟩) id ?_
    rintro t fuel i ⟨r, y⟩ hi hr
    simp only [comparisonAt?, Option.bind_eq_bind, Option.bind_eq_some_iff, Option.map_eq_some_iff,
      Option.pure_def, Option.some.injEq, Prod.mk.injEq] at hr
    obtain ⟨_, hr, _, ⟨arg, harg, rfl⟩, rfl, rfl⟩ := hr
    simp only [id, restrictionAt?, hi, hr, harg, Option.bind_eq_bind, Option.bind_some,
      Option.pure_def]

theorem storeComparison_stores : ∀ c, Stores (storeComparison c) comparisonAt? 0 c
  | ⟨comparator, pos, arg⟩ => by
    refine (storeArg_stores arg).map (ComparisonRef.mk comparator pos) fun _ _ _ h => ?_
    simp only [comparisonAt?, h, Option.map_some]

theorem storeComposite_stores : ∀ c, Stores (storeComposite c) compositeAt? 1 c
  | ⟨span, e⟩ => by
    refine Stores.node putComposite_adds (fun _ _ h => h.composites)
      (storeExpression_stores e).unspare (⟨span, ·⟩) id ?_
    intro t fuel i r hi hr
    simp only [id, compositeAt?, hi, hr, Option.bind_eq_bind, Option.bind_some, Option.pure_def]

theorem storeComparable_stores : ∀ c, Stores (storeComparable c) comparableAt? 1 c
  | .member m => by
    refine Stores.node putMember_adds (fun _ _ h => h.members)
      (stores_pure m) id ComparableRef.member ?_
    intro t fuel i r hi hr
    cases hr
    simp only [comparableAt?, hi, Option.map_some, id]
  | .call ⟨span, name, args⟩ => by
    refine Stores.node putCall_adds (fun _ _ h => h.calls)
      (storeArgs_stores args) (⟨span, name, ·⟩) ComparableRef.call ?_
    intro t fuel i r hi hr
    simp only [comparableAt?, hi, hr, Option.bind_eq_bind, Option.bind_some, Option.pure_def]
  | .struct ⟨span, name, entries⟩ => by
    refine Stores.node putStruct_adds (fun _ _ h => h.structs)
      (storeEntries_stores entries) (⟨span, name, ·⟩) ComparableRef.struct ?_
    intro t fuel i r hi hr
    change (r.mapM fun e => (t.comparableAt? fuel e.2).map (StructEntry.mk e.1)) = _ at hr
    simp only [comparableAt?, hi, hr, Option.bind_eq_bind, Option.bind_some, Option.pure_def]
  | .array ⟨span, elements⟩ => by
    refine Stores.node putArray_adds (fun _ _ h => h.arrays)
      (storeElements_stores elements) (⟨span, ·⟩) ComparableRef.array ?_
    intro t fuel i r hi hr
    simp only [comparableAt?, hi, hr, Option.bind_eq_bind, Option.bind_some, Option.pure_def]

theorem storeArg_stores : ∀ a, Stores (storeArg a) argAt? 0 a
  | .composite c => (storeComposite_stores c).refer ArgRef.composite fun _ _ _ h => by
    simp only [argAt?, h, Option.map_some]
  | .comparable c => (storeComparable_stores c).refer ArgRef.comparable fun _ _ _ h => by
    simp only [argAt?, h, Option.map_some]

theorem storeArgs_stores : ∀ as,
    Stores (storeArgs as) (fun t fuel r => r.mapM (t.argAt? fuel)) 0 as
  | [] => stores_nil
  | a :: as => stores_cons (storeArg_stores a) (storeArgs_stores as)

theorem storeEntries_stores : ∀ es,
    Stores (storeEntries es) (fun t fuel r => r.mapM (t.entryAt? fuel)) 0 es
  | [] => stores_nil
  | e :: es => stores_cons (storeEntry_stores e).unspare (storeEntries_stores es)

theorem storeEntry_stores : ∀ e, Stores (storeEntry e) entryAt? 1 e
  | ⟨name, value⟩ => (storeComparable_stores value).map (name, ·) fun _ _ _ h => by
    simp only [entryAt?, h, Option.map_some]

theorem storeElements_stores : ∀ cs,
    Stores (storeElements cs) (fun t fuel r => r.mapM (t.comparableAt? fuel)) 0 cs
  | [] => stores_nil
  | c :: cs => stores_cons (storeComparable_stores c).unspare (storeElements_stores cs)

end

theorem root_load_none (s : Store) : (s.load none).root = none := by
  simp only [load, release]
  split
  · rename_i h
    simp only [Bool.and_eq_true, Option.isNone_iff_eq_none] at h
    exact h.1
  · rfl

theorem nodeCount_release (s : Store) : s.release.nodeCount = 0 := by
  unfold release
  split
  · rename_i h
    simp only [Bool.and_eq_true, beq_iff_eq] at h
    exact h.2
  · rfl

theorem root_release (s : Store) : s.release.root = none := root_load_none s

/-- A store gives back the tree that it was filled with, whatever it held before. -/
theorem tree?_load (s : Store) (tree : Option Expression) : (s.load tree).tree? = tree := by
  cases tree with
  | none => rw [tree?, root_load_none, Option.bind_none]
  | some e =>
    have h := (storeExpression_stores e).reads s.release (s.load (some e)) (s.load (some e)).reach
    refine h ?_ ?_
    · constructor <;> exact Arena.Extends.refl _
    · have hcount : (s.load (some e)).nodeCount = (storeExpression e s.release).2.nodeCount := rfl
      rw [reach, hcount]
      omega

theorem isEmpty_load (s : Store) (tree : Option Expression) :
    (s.load tree).isEmpty = tree.isNone := by
  cases tree with
  | none =>
    rw [isEmpty, root_load_none]
    rfl
  | some e => rfl

theorem leaves_load (s : Store) (tree : Option Expression) :
    (s.load tree).leaves = tree.elim [] Expression.leaves := by
  rw [leaves, tree?_load]
  cases tree <;> rfl

/-- What a check accepts is a result. -/
theorem exists_of_toOption_any {ε α : Type} (x : Except ε α) (P : α → Prop) [DecidablePred P]
    (h : x.toOption.any (fun a => decide (P a)) = true) : ∃ a, x = .ok a ∧ P a := by
  cases x with
  | error err => cases h
  | ok a => exact ⟨a, rfl, of_decide_eq_true h⟩

end ListQuery.Filter.Store
