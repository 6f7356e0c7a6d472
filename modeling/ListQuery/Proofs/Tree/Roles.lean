/-
The tokens that a tree stands for, in the order of the grammar, each with the part that it plays: a
leaf of the tree, or an operator or delimiter that the tree has but does not keep.
-/
import ListQuery.Filter.Store
import ListQuery.Proofs.Tree.Shape

namespace ListQuery.Filter

/-- What a token is in a tree. -/
inductive Role where
  | leaf (l : Leaf)
  /-- An operator or a delimiter. -/
  | sign (p : Piece)

namespace Role

/-- The kind and the text of the token. -/
def piece : Role → Piece
  | leaf l => ⟨l.kind, l.raw⟩
  | sign p => p

def isLeaf : Role → Bool
  | leaf _ => true
  | sign _ => false

def leaf? : Role → Option Leaf
  | leaf l => some l
  | sign _ => none

def dot : Role := sign .dot
def comma : Role := sign .comma
def colon : Role := sign .colon

/-- A dotted name. -/
def ofPath (path : List Leaf) : List Role := [dot].intercalate (path.map fun l => [leaf l])

def ofUnary : Option UnaryOp → List Role
  | some .minus => [sign ⟨.minus, "-"⟩]
  | some .not => [sign ⟨.notWord, "NOT"⟩]
  | none => []

def ofComparator (c : Comparator) : Role := sign ⟨c.kind, c.text⟩

end Role

open Role

mutual

def Expression.yield : Expression → List Role
  | ⟨_, sequences⟩ => [sign ⟨.andWord, "AND"⟩].intercalate (sequenceYields sequences)

def sequenceYields : List Sequence → List (List Role)
  | [] => []
  | s :: ss => s.yield :: sequenceYields ss

def Sequence.yield : Sequence → List Role
  | ⟨_, factors⟩ => (factorYields factors).flatten

def factorYields : List Factor → List (List Role)
  | [] => []
  | f :: fs => f.yield :: factorYields fs

def Factor.yield : Factor → List Role
  | ⟨_, terms⟩ => [sign ⟨.orWord, "OR"⟩].intercalate (termYields terms)

def termYields : List Term → List (List Role)
  | [] => []
  | t :: ts => t.yield :: termYields ts

def Term.yield : Term → List Role
  | ⟨_, unary, simple, _⟩ => ofUnary unary ++ simple.yield

def Simple.yield : Simple → List Role
  | .restriction r => r.yield
  | .composite c => c.yield

def Restriction.yield : Restriction → List Role
  | ⟨_, comparable, none⟩ => comparable.yield
  | ⟨_, comparable, some comparison⟩ => comparable.yield ++ comparison.yield

def Comparison.yield : Comparison → List Role
  | ⟨comparator, _, arg⟩ => ofComparator comparator :: arg.yield

def Composite.yield : Composite → List Role
  | ⟨_, expression⟩ => sign ⟨.leftParen, "("⟩ :: (expression.yield ++ [sign ⟨.rightParen, ")"⟩])

def Comparable.yield : Comparable → List Role
  | .member m => ofPath m.path
  | .call c => c.yield
  | .struct s => s.yield
  | .array a => a.yield

def Arg.yield : Arg → List Role
  | .composite c => c.yield
  | .comparable c => c.yield

def argYields : List Arg → List (List Role)
  | [] => []
  | a :: as => a.yield :: argYields as

def Call.yield : Call → List Role
  | ⟨_, name, args⟩ =>
    ofPath name ++ sign ⟨.leftParen, "("⟩ ::
      ([comma].intercalate (argYields args) ++ [sign ⟨.rightParen, ")"⟩])

def StructLiteral.yield : StructLiteral → List Role
  | ⟨_, name, entries⟩ =>
    ofPath name ++ sign ⟨.leftBrace, "\x7b"⟩ ::
      ([comma].intercalate (entryYields entries) ++ [sign ⟨.rightBrace, "\x7d"⟩])

def entryYields : List StructEntry → List (List Role)
  | [] => []
  | e :: es => e.yield :: entryYields es

def StructEntry.yield : StructEntry → List Role
  | ⟨name, value⟩ => leaf name :: colon :: value.yield

def ArrayLiteral.yield : ArrayLiteral → List Role
  | ⟨_, elements⟩ =>
    sign ⟨.leftBracket, "["⟩ ::
      ([comma].intercalate (elementYields elements) ++ [sign ⟨.rightBracket, "]"⟩])

def elementYields : List Comparable → List (List Role)
  | [] => []
  | c :: cs => c.yield :: elementYields cs

end

/-- The tokens that the stored tree stands for. -/
def Store.yield (s : Store) : List Role := (s.tree?.map Expression.yield).getD []

theorem sequenceYields_eq (xs : List Sequence) : sequenceYields xs = xs.map Sequence.yield :=
  eq_map_of_cons rfl (fun _ _ => rfl) xs

theorem factorYields_eq (xs : List Factor) : factorYields xs = xs.map Factor.yield :=
  eq_map_of_cons rfl (fun _ _ => rfl) xs

theorem termYields_eq (xs : List Term) : termYields xs = xs.map Term.yield :=
  eq_map_of_cons rfl (fun _ _ => rfl) xs

theorem argYields_eq (xs : List Arg) : argYields xs = xs.map Arg.yield :=
  eq_map_of_cons rfl (fun _ _ => rfl) xs

theorem entryYields_eq (xs : List StructEntry) : entryYields xs = xs.map StructEntry.yield :=
  eq_map_of_cons rfl (fun _ _ => rfl) xs

theorem elementYields_eq (xs : List Comparable) : elementYields xs = xs.map Comparable.yield :=
  eq_map_of_cons rfl (fun _ _ => rfl) xs

/-! ## The leaves among them -/

/-- The leaves of a run of roles. -/
def Role.leavesOf (rs : List Role) : List Leaf := rs.filterMap leaf?

namespace Role

@[simp] theorem leavesOf_nil : leavesOf [] = [] := rfl

@[simp] theorem leavesOf_leaf (l : Leaf) (rs : List Role) :
    leavesOf (leaf l :: rs) = l :: leavesOf rs := rfl

@[simp] theorem leavesOf_sign (p : Piece) (rs : List Role) :
    leavesOf (sign p :: rs) = leavesOf rs := rfl

@[simp] theorem leavesOf_append (rs qs : List Role) :
    leavesOf (rs ++ qs) = leavesOf rs ++ leavesOf qs :=
  List.filterMap_append

/-- Signs between runs add no leaves. -/
theorem leavesOf_intercalate (p : Piece) : ∀ rss : List (List Role),
    leavesOf ([sign p].intercalate rss) = rss.flatMap leavesOf
  | [] => rfl
  | [rs] => by simp
  | rs :: qs :: rss => by
    rw [List.intercalate_cons_cons, leavesOf_append, leavesOf_append,
      leavesOf_intercalate p (qs :: rss)]
    simp

theorem leavesOf_flatten (rss : List (List Role)) :
    leavesOf rss.flatten = rss.flatMap leavesOf := by
  induction rss with
  | nil => rfl
  | cons rs rss ih => rw [List.flatten_cons, leavesOf_append, ih, List.flatMap_cons]

@[simp] theorem leavesOf_ofPath (path : List Leaf) : leavesOf (ofPath path) = path := by
  rw [ofPath, dot, leavesOf_intercalate, List.flatMap_map]
  exact List.flatMap_singleton' path

@[simp] theorem leavesOf_ofUnary (u : Option UnaryOp) : leavesOf (ofUnary u) = [] := by
  cases u with
  | none => rfl
  | some u => cases u <;> rfl

end Role

mutual

theorem Expression.leavesOf_yield : ∀ e : Expression, leavesOf e.yield = e.leaves
  | ⟨_, ss⟩ => by rw [Expression.yield, leavesOf_intercalate, flatMap_sequenceYields]; rfl

theorem flatMap_sequenceYields : ∀ ss, (sequenceYields ss).flatMap leavesOf = sequenceLeaves ss
  | [] => rfl
  | s :: ss => by
    rw [sequenceYields, List.flatMap_cons, s.leavesOf_yield, flatMap_sequenceYields ss]; rfl

theorem Sequence.leavesOf_yield : ∀ s : Sequence, leavesOf s.yield = s.leaves
  | ⟨_, fs⟩ => by rw [Sequence.yield, leavesOf_flatten, flatMap_factorYields]; rfl

theorem flatMap_factorYields : ∀ fs, (factorYields fs).flatMap leavesOf = factorLeaves fs
  | [] => rfl
  | f :: fs => by
    rw [factorYields, List.flatMap_cons, f.leavesOf_yield, flatMap_factorYields fs]; rfl

theorem Factor.leavesOf_yield : ∀ f : Factor, leavesOf f.yield = f.leaves
  | ⟨_, ts⟩ => by rw [Factor.yield, leavesOf_intercalate, flatMap_termYields]; rfl

theorem flatMap_termYields : ∀ ts, (termYields ts).flatMap leavesOf = termLeaves ts
  | [] => rfl
  | t :: ts => by
    rw [termYields, List.flatMap_cons, t.leavesOf_yield, flatMap_termYields ts]; rfl

theorem Term.leavesOf_yield : ∀ t : Term, leavesOf t.yield = t.leaves
  | ⟨_, _, x, _⟩ => by
    rw [Term.yield, leavesOf_append, leavesOf_ofUnary, List.nil_append, x.leavesOf_yield]; rfl

theorem Simple.leavesOf_yield : ∀ x : Simple, leavesOf x.yield = x.leaves
  | .restriction r => r.leavesOf_yield
  | .composite c => c.leavesOf_yield

theorem Restriction.leavesOf_yield : ∀ r : Restriction, leavesOf r.yield = r.leaves
  | ⟨_, c, none⟩ => c.leavesOf_yield
  | ⟨_, c, some x⟩ => by
    rw [Restriction.yield, leavesOf_append, c.leavesOf_yield, x.leavesOf_yield]; rfl

theorem Comparison.leavesOf_yield : ∀ c : Comparison, leavesOf c.yield = c.leaves
  | ⟨_, _, a⟩ => by
    rw [Comparison.yield, Role.ofComparator, leavesOf_sign, a.leavesOf_yield]; rfl

theorem Composite.leavesOf_yield : ∀ c : Composite, leavesOf c.yield = c.leaves
  | ⟨_, e⟩ => by
    rw [Composite.yield, leavesOf_sign, leavesOf_append, e.leavesOf_yield]
    exact List.append_nil _

theorem Comparable.leavesOf_yield : ∀ c : Comparable, leavesOf c.yield = c.leaves
  | .member m => leavesOf_ofPath m.path
  | .call c => c.leavesOf_yield
  | .struct s => s.leavesOf_yield
  | .array a => a.leavesOf_yield

theorem Arg.leavesOf_yield : ∀ a : Arg, leavesOf a.yield = a.leaves
  | .composite c => c.leavesOf_yield
  | .comparable c => c.leavesOf_yield

theorem flatMap_argYields : ∀ as, (argYields as).flatMap leavesOf = argLeaves as
  | [] => rfl
  | a :: as => by
    rw [argYields, List.flatMap_cons, a.leavesOf_yield, flatMap_argYields as]; rfl

theorem Call.leavesOf_yield : ∀ c : Call, leavesOf c.yield = c.leaves
  | ⟨_, name, args⟩ => by
    rw [Call.yield, leavesOf_append, leavesOf_ofPath, leavesOf_sign, leavesOf_append, comma,
      leavesOf_intercalate, flatMap_argYields]
    exact congrArg (name ++ ·) (List.append_nil _)

theorem StructLiteral.leavesOf_yield : ∀ s : StructLiteral, leavesOf s.yield = s.leaves
  | ⟨_, name, entries⟩ => by
    rw [StructLiteral.yield, leavesOf_append, leavesOf_ofPath, leavesOf_sign, leavesOf_append,
      comma, leavesOf_intercalate, flatMap_entryYields]
    exact congrArg (name ++ ·) (List.append_nil _)

theorem flatMap_entryYields : ∀ es, (entryYields es).flatMap leavesOf = entryLeaves es
  | [] => rfl
  | e :: es => by
    rw [entryYields, List.flatMap_cons, e.leavesOf_yield, flatMap_entryYields es]; rfl

theorem StructEntry.leavesOf_yield : ∀ e : StructEntry, leavesOf e.yield = e.leaves
  | ⟨name, value⟩ => by
    rw [StructEntry.yield, colon, leavesOf_leaf, leavesOf_sign, value.leavesOf_yield]; rfl

theorem ArrayLiteral.leavesOf_yield : ∀ a : ArrayLiteral, leavesOf a.yield = a.leaves
  | ⟨_, elements⟩ => by
    rw [ArrayLiteral.yield, leavesOf_sign, leavesOf_append, comma, leavesOf_intercalate,
      flatMap_elementYields]
    exact List.append_nil _

theorem flatMap_elementYields : ∀ cs, (elementYields cs).flatMap leavesOf = elementLeaves cs
  | [] => rfl
  | c :: cs => by
    rw [elementYields, List.flatMap_cons, c.leavesOf_yield, flatMap_elementYields cs]; rfl

end

end ListQuery.Filter
