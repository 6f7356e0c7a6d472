/-
Trees with their places moved. A tree keeps the places of its leaves, spans and operators; `moved`
carries all of them to other places and leaves everything else as it is. The tree without places is
the tree with all places moved to one (`Expression.unplaced_eq`).
-/
import ListQuery.Proofs.Tree.Shape

namespace ListQuery.Filter

/-- Where places go: positions, and the offsets behind stretches. -/
structure Move where
  pos : Position → Position
  stop : Nat → Nat

/-- All places go to one. -/
def Move.nowhere : Move := ⟨fun _ => .start, fun _ => 0⟩

def Span.moved (m : Move) (s : Span) : Span := ⟨m.pos s.start, m.stop s.stop⟩

def Token.moved (m : Move) (t : Token) : Token := { t with pos := m.pos t.pos }

def Leaf.moved (m : Move) (l : Leaf) : Leaf := ⟨l.token.moved m, l.leaf⟩

def Member.moved (m : Move) (x : Member) : Member :=
  ⟨x.span.moved m, x.value.moved m, x.fields.map (Leaf.moved m)⟩

mutual

/-- The tree with all spans and positions moved. -/
def Expression.moved (m : Move) : Expression → Expression
  | ⟨span, sequences⟩ => ⟨span.moved m, movedSequences m sequences⟩

def movedSequences (m : Move) : List Sequence → List Sequence
  | [] => []
  | s :: ss => s.moved m :: movedSequences m ss

def Sequence.moved (m : Move) : Sequence → Sequence
  | ⟨span, factors⟩ => ⟨span.moved m, movedFactors m factors⟩

def movedFactors (m : Move) : List Factor → List Factor
  | [] => []
  | f :: fs => f.moved m :: movedFactors m fs

def Factor.moved (m : Move) : Factor → Factor
  | ⟨span, terms⟩ => ⟨span.moved m, movedTerms m terms⟩

def movedTerms (m : Move) : List Term → List Term
  | [] => []
  | t :: ts => t.moved m :: movedTerms m ts

def Term.moved (m : Move) : Term → Term
  | ⟨span, unary, simple, orPos⟩ => ⟨span.moved m, unary, simple.moved m, orPos.map m.pos⟩

def Simple.moved (m : Move) : Simple → Simple
  | .restriction r => .restriction (r.moved m)
  | .composite c => .composite (c.moved m)

def Restriction.moved (m : Move) : Restriction → Restriction
  | ⟨span, comparable, none⟩ => ⟨span.moved m, comparable.moved m, none⟩
  | ⟨span, comparable, some comparison⟩ =>
    ⟨span.moved m, comparable.moved m, some (comparison.moved m)⟩

def Comparison.moved (m : Move) : Comparison → Comparison
  | ⟨comparator, pos, arg⟩ => ⟨comparator, m.pos pos, arg.moved m⟩

def Composite.moved (m : Move) : Composite → Composite
  | ⟨span, expression⟩ => ⟨span.moved m, expression.moved m⟩

def Comparable.moved (m : Move) : Comparable → Comparable
  | .member x => .member (x.moved m)
  | .call c => .call (c.moved m)
  | .struct s => .struct (s.moved m)
  | .array a => .array (a.moved m)

def Arg.moved (m : Move) : Arg → Arg
  | .composite c => .composite (c.moved m)
  | .comparable c => .comparable (c.moved m)

def movedArgs (m : Move) : List Arg → List Arg
  | [] => []
  | a :: as => a.moved m :: movedArgs m as

def Call.moved (m : Move) : Call → Call
  | ⟨span, name, args⟩ => ⟨span.moved m, name.map (Leaf.moved m), movedArgs m args⟩

def StructLiteral.moved (m : Move) : StructLiteral → StructLiteral
  | ⟨span, name, entries⟩ => ⟨span.moved m, name.map (Leaf.moved m), movedEntries m entries⟩

def movedEntries (m : Move) : List StructEntry → List StructEntry
  | [] => []
  | e :: es => e.moved m :: movedEntries m es

def StructEntry.moved (m : Move) : StructEntry → StructEntry
  | ⟨name, value⟩ => ⟨name.moved m, value.moved m⟩

def ArrayLiteral.moved (m : Move) : ArrayLiteral → ArrayLiteral
  | ⟨span, elements⟩ => ⟨span.moved m, movedElements m elements⟩

def movedElements (m : Move) : List Comparable → List Comparable
  | [] => []
  | c :: cs => c.moved m :: movedElements m cs

end

/-! ## Parts of nodes -/

section Parts

variable (m : Move)

theorem movedSequences_eq (xs : List Sequence) : movedSequences m xs = xs.map (Sequence.moved m) :=
  eq_map_of_cons rfl (fun _ _ => rfl) xs

theorem movedFactors_eq (xs : List Factor) : movedFactors m xs = xs.map (Factor.moved m) :=
  eq_map_of_cons rfl (fun _ _ => rfl) xs

theorem movedTerms_eq (xs : List Term) : movedTerms m xs = xs.map (Term.moved m) :=
  eq_map_of_cons rfl (fun _ _ => rfl) xs

theorem movedArgs_eq (xs : List Arg) : movedArgs m xs = xs.map (Arg.moved m) :=
  eq_map_of_cons rfl (fun _ _ => rfl) xs

theorem movedEntries_eq (xs : List StructEntry) :
    movedEntries m xs = xs.map (StructEntry.moved m) :=
  eq_map_of_cons rfl (fun _ _ => rfl) xs

theorem movedElements_eq (xs : List Comparable) :
    movedElements m xs = xs.map (Comparable.moved m) :=
  eq_map_of_cons rfl (fun _ _ => rfl) xs

@[simp] theorem Leaf.moved_kind (l : Leaf) : (l.moved m).kind = l.kind := rfl
@[simp] theorem Leaf.moved_unquoted (l : Leaf) : (l.moved m).unquoted = l.unquoted := rfl

@[simp] theorem Member.moved_value (x : Member) : (x.moved m).value = x.value.moved m := rfl

@[simp] theorem Member.moved_path (x : Member) : (x.moved m).path = x.path.map (Leaf.moved m) := rfl

@[simp] theorem joinPath_moved (q : Quoting) (path : List Leaf) :
    joinPath q (path.map (Leaf.moved m)) = joinPath q path := by
  have h : Leaf.write q ∘ Leaf.moved m = Leaf.write q := by
    funext l
    cases q <;> rfl
  rw [joinPath, List.map_map, h, joinPath]

theorem Expression.moved_start (e : Expression) :
    (e.moved m).span.start = m.pos e.span.start := by
  cases e
  rfl

@[simp] theorem Expression.moved_sequences (e : Expression) :
    (e.moved m).sequences = e.sequences.map (Sequence.moved m) := by
  cases e
  exact movedSequences_eq m _

@[simp] theorem Sequence.moved_factors (s : Sequence) :
    (s.moved m).factors = s.factors.map (Factor.moved m) := by
  cases s
  exact movedFactors_eq m _

@[simp] theorem Factor.moved_terms (f : Factor) :
    (f.moved m).terms = f.terms.map (Term.moved m) := by
  cases f
  exact movedTerms_eq m _

@[simp] theorem Term.moved_unary (t : Term) : (t.moved m).unary = t.unary := by
  cases t
  rfl

@[simp] theorem Term.moved_simple (t : Term) : (t.moved m).simple = t.simple.moved m := by
  cases t
  rfl

@[simp] theorem Restriction.moved_comparison (r : Restriction) :
    (r.moved m).comparison = r.comparison.map (Comparison.moved m) := by
  obtain ⟨span, comparable, _ | comparison⟩ := r <;> rfl

@[simp] theorem Comparison.moved_comparator (c : Comparison) :
    (c.moved m).comparator = c.comparator := by
  cases c
  rfl

@[simp] theorem Composite.moved_expression (c : Composite) :
    (c.moved m).expression = c.expression.moved m := by
  cases c
  rfl

theorem Comparable.moved_start (c : Comparable) :
    (c.moved m).span.start = m.pos c.span.start := by
  cases c with
  | member x => rfl
  | call c => cases c; rfl
  | struct s => cases s; rfl
  | array a => cases a; rfl

theorem Call.moved_start (c : Call) :
    (c.moved m).span.start = m.pos c.span.start := by
  cases c
  rfl

@[simp] theorem Call.moved_name (c : Call) : (c.moved m).name = c.name.map (Leaf.moved m) := by
  cases c
  rfl

@[simp] theorem Call.moved_args (c : Call) : (c.moved m).args = c.args.map (Arg.moved m) := by
  cases c
  exact movedArgs_eq m _

theorem StructLiteral.moved_start (s : StructLiteral) :
    (s.moved m).span.start = m.pos s.span.start := by
  cases s
  rfl

@[simp] theorem StructLiteral.moved_name (s : StructLiteral) :
    (s.moved m).name = s.name.map (Leaf.moved m) := by
  cases s
  rfl

@[simp] theorem StructLiteral.moved_entries (s : StructLiteral) :
    (s.moved m).entries = s.entries.map (StructEntry.moved m) := by
  cases s
  exact movedEntries_eq m _

@[simp] theorem StructEntry.moved_name (e : StructEntry) :
    (e.moved m).name = e.name.moved m := by
  cases e
  rfl

@[simp] theorem StructEntry.moved_value (e : StructEntry) :
    (e.moved m).value = e.value.moved m := by
  cases e
  rfl

theorem ArrayLiteral.moved_start (a : ArrayLiteral) :
    (a.moved m).span.start = m.pos a.span.start := by
  cases a
  rfl

@[simp] theorem ArrayLiteral.moved_elements (a : ArrayLiteral) :
    (a.moved m).elements = a.elements.map (Comparable.moved m) := by
  cases a
  exact movedElements_eq m _

end Parts

mutual

theorem Expression.unplaced_eq : ∀ e : Expression, e.unplaced = e.moved .nowhere
  | ⟨_, ss⟩ => by
    rw [Expression.unplaced, Expression.moved, unplaced_sequences_eq ss]
    rfl

theorem unplaced_sequences_eq : ∀ ss, unplacedSequences ss = movedSequences .nowhere ss
  | [] => rfl
  | s :: ss => by
    rw [unplacedSequences, movedSequences, s.unplaced_eq, unplaced_sequences_eq ss]

theorem Sequence.unplaced_eq : ∀ s : Sequence, s.unplaced = s.moved .nowhere
  | ⟨_, fs⟩ => by
    rw [Sequence.unplaced, Sequence.moved, unplaced_factors_eq fs]
    rfl

theorem unplaced_factors_eq : ∀ fs, unplacedFactors fs = movedFactors .nowhere fs
  | [] => rfl
  | f :: fs => by rw [unplacedFactors, movedFactors, f.unplaced_eq, unplaced_factors_eq fs]

theorem Factor.unplaced_eq : ∀ f : Factor, f.unplaced = f.moved .nowhere
  | ⟨_, ts⟩ => by
    rw [Factor.unplaced, Factor.moved, unplaced_terms_eq ts]
    rfl

theorem unplaced_terms_eq : ∀ ts, unplacedTerms ts = movedTerms .nowhere ts
  | [] => rfl
  | t :: ts => by rw [unplacedTerms, movedTerms, t.unplaced_eq, unplaced_terms_eq ts]

theorem Term.unplaced_eq : ∀ t : Term, t.unplaced = t.moved .nowhere
  | ⟨_, _, x, _⟩ => by
    rw [Term.unplaced, Term.moved, x.unplaced_eq]
    rfl

theorem Simple.unplaced_eq : ∀ x : Simple, x.unplaced = x.moved .nowhere
  | .restriction r => by rw [Simple.unplaced, Simple.moved, r.unplaced_eq]
  | .composite c => by rw [Simple.unplaced, Simple.moved, c.unplaced_eq]

theorem Restriction.unplaced_eq : ∀ r : Restriction, r.unplaced = r.moved .nowhere
  | ⟨_, c, none⟩ => by
    rw [Restriction.unplaced, Restriction.moved, c.unplaced_eq]
    rfl
  | ⟨_, c, some x⟩ => by
    rw [Restriction.unplaced, Restriction.moved, c.unplaced_eq, x.unplaced_eq]
    rfl

theorem Comparison.unplaced_eq : ∀ c : Comparison, c.unplaced = c.moved .nowhere
  | ⟨_, _, a⟩ => by
    rw [Comparison.unplaced, Comparison.moved, a.unplaced_eq]
    rfl

theorem Composite.unplaced_eq : ∀ c : Composite, c.unplaced = c.moved .nowhere
  | ⟨_, e⟩ => by
    rw [Composite.unplaced, Composite.moved, e.unplaced_eq]
    rfl

theorem Comparable.unplaced_eq : ∀ c : Comparable, c.unplaced = c.moved .nowhere
  | .member _ => rfl
  | .call c => by rw [Comparable.unplaced, Comparable.moved, c.unplaced_eq]
  | .struct s => by rw [Comparable.unplaced, Comparable.moved, s.unplaced_eq]
  | .array a => by rw [Comparable.unplaced, Comparable.moved, a.unplaced_eq]

theorem Arg.unplaced_eq : ∀ a : Arg, a.unplaced = a.moved .nowhere
  | .composite c => by rw [Arg.unplaced, Arg.moved, c.unplaced_eq]
  | .comparable c => by rw [Arg.unplaced, Arg.moved, c.unplaced_eq]

theorem unplaced_args_eq : ∀ as, unplacedArgs as = movedArgs .nowhere as
  | [] => rfl
  | a :: as => by rw [unplacedArgs, movedArgs, a.unplaced_eq, unplaced_args_eq as]

theorem Call.unplaced_eq : ∀ c : Call, c.unplaced = c.moved .nowhere
  | ⟨_, _, as⟩ => by
    rw [Call.unplaced, Call.moved, unplaced_args_eq as]
    rfl

theorem StructLiteral.unplaced_eq : ∀ s : StructLiteral, s.unplaced = s.moved .nowhere
  | ⟨_, _, es⟩ => by
    rw [StructLiteral.unplaced, StructLiteral.moved, unplaced_entries_eq es]
    rfl

theorem unplaced_entries_eq : ∀ es, unplacedEntries es = movedEntries .nowhere es
  | [] => rfl
  | e :: es => by rw [unplacedEntries, movedEntries, e.unplaced_eq, unplaced_entries_eq es]

theorem StructEntry.unplaced_eq : ∀ e : StructEntry, e.unplaced = e.moved .nowhere
  | ⟨_, c⟩ => by
    rw [StructEntry.unplaced, StructEntry.moved, c.unplaced_eq]
    rfl

theorem ArrayLiteral.unplaced_eq : ∀ a : ArrayLiteral, a.unplaced = a.moved .nowhere
  | ⟨_, cs⟩ => by
    rw [ArrayLiteral.unplaced, ArrayLiteral.moved, unplaced_elements_eq cs]
    rfl

theorem unplaced_elements_eq : ∀ cs, unplacedElements cs = movedElements .nowhere cs
  | [] => rfl
  | c :: cs => by rw [unplacedElements, movedElements, c.unplaced_eq, unplaced_elements_eq cs]

end

end ListQuery.Filter
