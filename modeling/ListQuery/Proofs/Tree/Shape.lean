/-
The shape of a tree: what is left of it without the places where it was read (`unplaced`), and the
nodes that it is made of (`nodes`). Two trees of one shape are written alike
(`Expression.written_unplaced`).
-/
import ListQuery.Filter.Tree.Written
import ListQuery.Proofs.Token.Chain

namespace ListQuery.Filter

/-- The stretch that stands for no place. -/
def Span.nowhere : Span := ⟨.start, 0⟩

/-- A bare word. -/
def Leaf.word (text : String) : Leaf := ⟨⟨.text, text, .start⟩, rfl⟩

/-- A dotted name of bare words. -/
def Member.ofWords (word : String) (fields : List String) : Member :=
  ⟨.nowhere, .word word, fields.map .word⟩

def Leaf.unplaced (l : Leaf) : Leaf := ⟨{ l.token with pos := .start }, l.leaf⟩

def Member.unplaced (m : Member) : Member :=
  ⟨.nowhere, m.value.unplaced, m.fields.map Leaf.unplaced⟩

mutual

/-- The tree with all spans and positions set to the front of the text. -/
def Expression.unplaced : Expression → Expression
  | ⟨_, sequences⟩ => ⟨.nowhere, unplacedSequences sequences⟩

def unplacedSequences : List Sequence → List Sequence
  | [] => []
  | s :: ss => s.unplaced :: unplacedSequences ss

def Sequence.unplaced : Sequence → Sequence
  | ⟨_, factors⟩ => ⟨.nowhere, unplacedFactors factors⟩

def unplacedFactors : List Factor → List Factor
  | [] => []
  | f :: fs => f.unplaced :: unplacedFactors fs

def Factor.unplaced : Factor → Factor
  | ⟨_, terms⟩ => ⟨.nowhere, unplacedTerms terms⟩

def unplacedTerms : List Term → List Term
  | [] => []
  | t :: ts => t.unplaced :: unplacedTerms ts

def Term.unplaced : Term → Term
  | ⟨_, unary, simple, orPos⟩ => ⟨.nowhere, unary, simple.unplaced, orPos.map fun _ => .start⟩

def Simple.unplaced : Simple → Simple
  | .restriction r => .restriction r.unplaced
  | .composite c => .composite c.unplaced

def Restriction.unplaced : Restriction → Restriction
  | ⟨_, comparable, none⟩ => ⟨.nowhere, comparable.unplaced, none⟩
  | ⟨_, comparable, some comparison⟩ =>
    ⟨.nowhere, comparable.unplaced, some comparison.unplaced⟩

def Comparison.unplaced : Comparison → Comparison
  | ⟨comparator, _, arg⟩ => ⟨comparator, .start, arg.unplaced⟩

def Composite.unplaced : Composite → Composite
  | ⟨_, expression⟩ => ⟨.nowhere, expression.unplaced⟩

def Comparable.unplaced : Comparable → Comparable
  | .member m => .member m.unplaced
  | .call c => .call c.unplaced
  | .struct s => .struct s.unplaced
  | .array a => .array a.unplaced

def Arg.unplaced : Arg → Arg
  | .composite c => .composite c.unplaced
  | .comparable c => .comparable c.unplaced

def unplacedArgs : List Arg → List Arg
  | [] => []
  | a :: as => a.unplaced :: unplacedArgs as

def Call.unplaced : Call → Call
  | ⟨_, name, args⟩ => ⟨.nowhere, name.map Leaf.unplaced, unplacedArgs args⟩

def StructLiteral.unplaced : StructLiteral → StructLiteral
  | ⟨_, name, entries⟩ => ⟨.nowhere, name.map Leaf.unplaced, unplacedEntries entries⟩

def unplacedEntries : List StructEntry → List StructEntry
  | [] => []
  | e :: es => e.unplaced :: unplacedEntries es

def StructEntry.unplaced : StructEntry → StructEntry
  | ⟨name, value⟩ => ⟨name.unplaced, value.unplaced⟩

def ArrayLiteral.unplaced : ArrayLiteral → ArrayLiteral
  | ⟨_, elements⟩ => ⟨.nowhere, unplacedElements elements⟩

def unplacedElements : List Comparable → List Comparable
  | [] => []
  | c :: cs => c.unplaced :: unplacedElements cs

end

/-! ## One shape, one text -/

theorem ofLeaf_unplaced (q : Quoting) (l : Leaf) :
    Piece.ofLeaf q l.unplaced = Piece.ofLeaf q l := by
  cases q <;> rfl

theorem ofPath_unplaced (q : Quoting) (path : List Leaf) :
    Piece.ofPath q (path.map Leaf.unplaced) = Piece.ofPath q path := by
  simp [Piece.ofPath, Function.comp_def, ofLeaf_unplaced]

mutual

theorem Expression.written_unplaced (q : Quoting) : ∀ e : Expression,
    e.unplaced.written q = e.written q
  | ⟨_, sequences⟩ => by
    simp only [Expression.unplaced, Expression.written, writtenSequences_unplaced q sequences]

theorem writtenSequences_unplaced (q : Quoting) : ∀ ss : List Sequence,
    writtenSequences q (unplacedSequences ss) = writtenSequences q ss
  | [] => rfl
  | s :: ss => by
    simp only [unplacedSequences, writtenSequences, Sequence.written_unplaced q s,
      writtenSequences_unplaced q ss]

theorem Sequence.written_unplaced (q : Quoting) : ∀ s : Sequence,
    s.unplaced.written q = s.written q
  | ⟨_, factors⟩ => by
    simp only [Sequence.unplaced, Sequence.written, writtenFactors_unplaced q factors]

theorem writtenFactors_unplaced (q : Quoting) : ∀ fs : List Factor,
    writtenFactors q (unplacedFactors fs) = writtenFactors q fs
  | [] => rfl
  | f :: fs => by
    simp only [unplacedFactors, writtenFactors, Factor.written_unplaced q f,
      writtenFactors_unplaced q fs]

theorem Factor.written_unplaced (q : Quoting) : ∀ f : Factor, f.unplaced.written q = f.written q
  | ⟨_, terms⟩ => by
    simp only [Factor.unplaced, Factor.written, writtenTerms_unplaced q terms]

theorem writtenTerms_unplaced (q : Quoting) : ∀ ts : List Term,
    writtenTerms q (unplacedTerms ts) = writtenTerms q ts
  | [] => rfl
  | t :: ts => by
    simp only [unplacedTerms, writtenTerms, Term.written_unplaced q t, writtenTerms_unplaced q ts]

theorem Term.written_unplaced (q : Quoting) : ∀ t : Term, t.unplaced.written q = t.written q
  | ⟨_, _, simple, _⟩ => by
    simp only [Term.unplaced, Term.written, Simple.written_unplaced q simple]

theorem Simple.written_unplaced (q : Quoting) : ∀ s : Simple, s.unplaced.written q = s.written q
  | .restriction r => by
    simp only [Simple.unplaced, Simple.written, Restriction.written_unplaced q r]
  | .composite c => by
    simp only [Simple.unplaced, Simple.written, Composite.written_unplaced q c]

theorem Restriction.written_unplaced (q : Quoting) : ∀ r : Restriction,
    r.unplaced.written q = r.written q
  | ⟨_, comparable, none⟩ => by
    simp only [Restriction.unplaced, Restriction.written, Comparable.written_unplaced q comparable]
  | ⟨_, comparable, some comparison⟩ => by
    simp only [Restriction.unplaced, Restriction.written, Comparable.written_unplaced q comparable,
      Comparison.written_unplaced q comparison]

theorem Comparison.written_unplaced (q : Quoting) : ∀ c : Comparison,
    c.unplaced.written q = c.written q
  | ⟨_, _, arg⟩ => by
    simp only [Comparison.unplaced, Comparison.written, Arg.written_unplaced q arg]

theorem Composite.written_unplaced (q : Quoting) : ∀ c : Composite,
    c.unplaced.written q = c.written q
  | ⟨_, expression⟩ => by
    simp only [Composite.unplaced, Composite.written, Expression.written_unplaced q expression]

theorem Comparable.written_unplaced (q : Quoting) : ∀ c : Comparable,
    c.unplaced.written q = c.written q
  | .member m => ofPath_unplaced q m.path
  | .call c => by
    simp only [Comparable.unplaced, Comparable.written, Call.written_unplaced q c]
  | .struct s => by
    simp only [Comparable.unplaced, Comparable.written, StructLiteral.written_unplaced q s]
  | .array a => by
    simp only [Comparable.unplaced, Comparable.written, ArrayLiteral.written_unplaced q a]

theorem Arg.written_unplaced (q : Quoting) : ∀ a : Arg, a.unplaced.written q = a.written q
  | .composite c => by simp only [Arg.unplaced, Arg.written, Composite.written_unplaced q c]
  | .comparable c => by simp only [Arg.unplaced, Arg.written, Comparable.written_unplaced q c]

theorem writtenArgs_unplaced (q : Quoting) : ∀ as : List Arg,
    writtenArgs q (unplacedArgs as) = writtenArgs q as
  | [] => rfl
  | a :: as => by
    simp only [unplacedArgs, writtenArgs, Arg.written_unplaced q a, writtenArgs_unplaced q as]

theorem Call.written_unplaced (q : Quoting) : ∀ c : Call, c.unplaced.written q = c.written q
  | ⟨_, name, args⟩ => by
    simp only [Call.unplaced, Call.written, ofPath_unplaced, writtenArgs_unplaced q args]

theorem StructLiteral.written_unplaced (q : Quoting) : ∀ s : StructLiteral,
    s.unplaced.written q = s.written q
  | ⟨_, name, entries⟩ => by
    simp only [StructLiteral.unplaced, StructLiteral.written, ofPath_unplaced,
      writtenEntries_unplaced q entries]

theorem writtenEntries_unplaced (q : Quoting) : ∀ es : List StructEntry,
    writtenEntries q (unplacedEntries es) = writtenEntries q es
  | [] => rfl
  | e :: es => by
    simp only [unplacedEntries, writtenEntries, StructEntry.written_unplaced q e,
      writtenEntries_unplaced q es]

theorem StructEntry.written_unplaced (q : Quoting) : ∀ e : StructEntry,
    e.unplaced.written q = e.written q
  | ⟨name, value⟩ => by
    simp only [StructEntry.unplaced, StructEntry.written, ofLeaf_unplaced,
      Comparable.written_unplaced q value]

theorem ArrayLiteral.written_unplaced (q : Quoting) : ∀ a : ArrayLiteral,
    a.unplaced.written q = a.written q
  | ⟨_, elements⟩ => by
    simp only [ArrayLiteral.unplaced, ArrayLiteral.written, writtenElements_unplaced q elements]

theorem writtenElements_unplaced (q : Quoting) : ∀ cs : List Comparable,
    writtenElements q (unplacedElements cs) = writtenElements q cs
  | [] => rfl
  | c :: cs => by
    simp only [unplacedElements, writtenElements, Comparable.written_unplaced q c,
      writtenElements_unplaced q cs]

end

/-- Trees of one shape have one text. -/
theorem Expression.render_eq_of_unplaced {a b : Expression} (q : Quoting)
    (h : a.unplaced = b.unplaced) : a.render q = b.render q := by
  rw [Expression.render, Expression.render, ← written_unplaced q a, h, written_unplaced q b]

/-! ## Nodes -/

/-- A node of a tree. -/
inductive Node where
  | expression (e : Expression)
  | sequence (s : Sequence)
  | factor (f : Factor)
  | term (t : Term)
  | restriction (r : Restriction)
  | composite (c : Composite)
  | comparable (c : Comparable)

mutual

/-- All nodes of a tree, each before what it holds. -/
def Expression.nodes : Expression → List Node
  | ⟨span, sequences⟩ => .expression ⟨span, sequences⟩ :: sequenceNodes sequences

def sequenceNodes : List Sequence → List Node
  | [] => []
  | s :: ss => s.nodes ++ sequenceNodes ss

def Sequence.nodes : Sequence → List Node
  | ⟨span, factors⟩ => .sequence ⟨span, factors⟩ :: factorNodes factors

def factorNodes : List Factor → List Node
  | [] => []
  | f :: fs => f.nodes ++ factorNodes fs

def Factor.nodes : Factor → List Node
  | ⟨span, terms⟩ => .factor ⟨span, terms⟩ :: termNodes terms

def termNodes : List Term → List Node
  | [] => []
  | t :: ts => t.nodes ++ termNodes ts

def Term.nodes : Term → List Node
  | ⟨span, unary, simple, orPos⟩ => .term ⟨span, unary, simple, orPos⟩ :: simple.nodes

def Simple.nodes : Simple → List Node
  | .restriction r => r.nodes
  | .composite c => c.nodes

def Restriction.nodes : Restriction → List Node
  | ⟨span, comparable, none⟩ => .restriction ⟨span, comparable, none⟩ :: comparable.nodes
  | ⟨span, comparable, some comparison⟩ =>
    .restriction ⟨span, comparable, some comparison⟩ :: comparable.nodes ++ comparison.nodes

def Comparison.nodes : Comparison → List Node
  | ⟨_, _, arg⟩ => arg.nodes

def Composite.nodes : Composite → List Node
  | ⟨span, expression⟩ => .composite ⟨span, expression⟩ :: expression.nodes

def Comparable.nodes : Comparable → List Node
  | .member m => [.comparable (.member m)]
  | .call c => .comparable (.call c) :: c.nodes
  | .struct s => .comparable (.struct s) :: s.nodes
  | .array a => .comparable (.array a) :: a.nodes

def Arg.nodes : Arg → List Node
  | .composite c => c.nodes
  | .comparable c => c.nodes

def argNodes : List Arg → List Node
  | [] => []
  | a :: as => a.nodes ++ argNodes as

/-- The nodes inside of a call. -/
def Call.nodes : Call → List Node
  | ⟨_, _, args⟩ => argNodes args

/-- The nodes inside of a struct literal. -/
def StructLiteral.nodes : StructLiteral → List Node
  | ⟨_, _, entries⟩ => entryNodes entries

def entryNodes : List StructEntry → List Node
  | [] => []
  | e :: es => e.nodes ++ entryNodes es

def StructEntry.nodes : StructEntry → List Node
  | ⟨_, value⟩ => value.nodes

/-- The nodes inside of an array literal. -/
def ArrayLiteral.nodes : ArrayLiteral → List Node
  | ⟨_, elements⟩ => elementNodes elements

def elementNodes : List Comparable → List Node
  | [] => []
  | c :: cs => c.nodes ++ elementNodes cs

end

/-- A function that goes down a list one element at a time is a map. -/
theorem eq_map_of_cons {α β : Type} {f : List α → List β} {g : α → β} (hnil : f [] = [])
    (hcons : ∀ a as, f (a :: as) = g a :: f as) : ∀ as, f as = as.map g
  | [] => hnil
  | a :: as => by rw [hcons, eq_map_of_cons hnil hcons as, List.map_cons]

/-- A function that collects along a list is a flat map. -/
theorem eq_flatMap_of_cons {α β : Type} {f : List α → List β} {g : α → List β} (hnil : f [] = [])
    (hcons : ∀ a as, f (a :: as) = g a ++ f as) : ∀ as, f as = as.flatMap g
  | [] => hnil
  | a :: as => by rw [hcons, eq_flatMap_of_cons hnil hcons as, List.flatMap_cons]

theorem writtenSequences_eq (q : Quoting) (xs : List Sequence) :
    writtenSequences q xs = xs.map (Sequence.written q) :=
  eq_map_of_cons rfl (fun _ _ => rfl) xs

theorem writtenFactors_eq (q : Quoting) (xs : List Factor) :
    writtenFactors q xs = xs.map (Factor.written q) :=
  eq_map_of_cons rfl (fun _ _ => rfl) xs

theorem writtenTerms_eq (q : Quoting) (xs : List Term) :
    writtenTerms q xs = xs.map (Term.written q) :=
  eq_map_of_cons rfl (fun _ _ => rfl) xs

theorem writtenArgs_eq (q : Quoting) (xs : List Arg) :
    writtenArgs q xs = xs.map (Arg.written q) :=
  eq_map_of_cons rfl (fun _ _ => rfl) xs

theorem writtenEntries_eq (q : Quoting) (xs : List StructEntry) :
    writtenEntries q xs = xs.map (StructEntry.written q) :=
  eq_map_of_cons rfl (fun _ _ => rfl) xs

theorem writtenElements_eq (q : Quoting) (xs : List Comparable) :
    writtenElements q xs = xs.map (Comparable.written q) :=
  eq_map_of_cons rfl (fun _ _ => rfl) xs

theorem unplacedSequences_eq (xs : List Sequence) : unplacedSequences xs = xs.map Sequence.unplaced :=
  eq_map_of_cons rfl (fun _ _ => rfl) xs

theorem unplacedFactors_eq (xs : List Factor) : unplacedFactors xs = xs.map Factor.unplaced :=
  eq_map_of_cons rfl (fun _ _ => rfl) xs

theorem unplacedTerms_eq (xs : List Term) : unplacedTerms xs = xs.map Term.unplaced :=
  eq_map_of_cons rfl (fun _ _ => rfl) xs

theorem unplacedArgs_eq (xs : List Arg) : unplacedArgs xs = xs.map Arg.unplaced :=
  eq_map_of_cons rfl (fun _ _ => rfl) xs

theorem unplacedEntries_eq (xs : List StructEntry) : unplacedEntries xs = xs.map StructEntry.unplaced :=
  eq_map_of_cons rfl (fun _ _ => rfl) xs

theorem unplacedElements_eq (xs : List Comparable) : unplacedElements xs = xs.map Comparable.unplaced :=
  eq_map_of_cons rfl (fun _ _ => rfl) xs

theorem sequenceNodes_eq (xs : List Sequence) : sequenceNodes xs = xs.flatMap Sequence.nodes :=
  eq_flatMap_of_cons rfl (fun _ _ => rfl) xs

theorem factorNodes_eq (xs : List Factor) : factorNodes xs = xs.flatMap Factor.nodes :=
  eq_flatMap_of_cons rfl (fun _ _ => rfl) xs

theorem termNodes_eq (xs : List Term) : termNodes xs = xs.flatMap Term.nodes :=
  eq_flatMap_of_cons rfl (fun _ _ => rfl) xs

theorem argNodes_eq (xs : List Arg) : argNodes xs = xs.flatMap Arg.nodes :=
  eq_flatMap_of_cons rfl (fun _ _ => rfl) xs

theorem entryNodes_eq (xs : List StructEntry) : entryNodes xs = xs.flatMap StructEntry.nodes :=
  eq_flatMap_of_cons rfl (fun _ _ => rfl) xs

theorem elementNodes_eq (xs : List Comparable) : elementNodes xs = xs.flatMap Comparable.nodes :=
  eq_flatMap_of_cons rfl (fun _ _ => rfl) xs

/-- The tree is a single term without an operator. -/
def Expression.Single (e : Expression) (x : Simple) : Prop :=
  ∃ a b c d, e = ⟨a, [⟨b, [⟨c, [⟨d, none, x, none⟩]⟩]⟩]⟩

/-- Whether a comparable is a member that starts with a digit. -/
def Comparable.leadsDigit : Comparable → Bool
  | .member m => startsDigit m.value.raw.toList
  | _ => false

def Simple.leadsDigit : Simple → Bool
  | .restriction r => r.comparable.leadsDigit
  | .composite _ => false

/-- A dash that stands before a digit: written one behind the other, the two are a negative
number. -/
def Term.gluesDash (t : Term) : Bool :=
  t.unary == some .minus && t.simple.leadsDigit

/-- No term of the nodes has a dash before a digit. -/
def NoGlue (ns : List Node) : Prop := ∀ t, .term t ∈ ns → t.gluesDash = false

def Node.gluesDash : Node → Bool
  | .term t => t.gluesDash
  | _ => false

theorem noGlue_iff {ns : List Node} : NoGlue ns ↔ ns.all (fun n => !n.gluesDash) = true := by
  simp only [List.all_eq_true, Bool.not_eq_true', NoGlue]
  refine ⟨fun h n hn => ?_, fun h t ht => h (.term t) ht⟩
  cases n with
  | term t => exact h t hn
  | _ => rfl

instance (ns : List Node) : Decidable (NoGlue ns) := decidable_of_iff _ noGlue_iff.symm

theorem noGlue_nil : NoGlue [] := by simp [NoGlue]

theorem noGlue_append {ns ms : List Node} : NoGlue (ns ++ ms) ↔ NoGlue ns ∧ NoGlue ms := by
  simp only [NoGlue, List.mem_append, or_imp, forall_and]

theorem noGlue_flatMap {α : Type} {f : α → List Node} {as : List α} :
    NoGlue (as.flatMap f) ↔ ∀ a ∈ as, NoGlue (f a) := by
  simp only [NoGlue, List.mem_flatMap, forall_exists_index, and_imp]
  exact ⟨fun h a ha t ht => h t a ha ht, fun h t a ha ht => h a ha t ht⟩

theorem noGlue_cons_term {t : Term} {ns : List Node} :
    NoGlue (.term t :: ns) ↔ t.gluesDash = false ∧ NoGlue ns := by
  simp only [NoGlue, List.mem_cons, Node.term.injEq, or_imp, forall_and, forall_eq]

theorem noGlue_cons_of_ne {n : Node} (hn : ∀ t, n ≠ .term t) {ns : List Node} :
    NoGlue (n :: ns) ↔ NoGlue ns := by
  simp only [NoGlue, List.mem_cons]
  exact ⟨fun h t ht => h t (.inr ht), fun h t ht => h t (ht.resolve_left fun he => hn t he.symm)⟩

end ListQuery.Filter
