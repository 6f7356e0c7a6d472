/-
Trees kept flat: the nodes of each sort lie in an arena of their own, and a node knows its children
by their handles. Children are stored before their parent, so every node but the root is stored once
and known to one parent. A store can be emptied and filled again; handles from before lead to
nothing then.
-/
import ListQuery.Arena
import ListQuery.Filter.Parse.Grammar
import ListQuery.Filter.Tree.Leaves
import ListQuery.Filter.Tree.Written

namespace ListQuery.Filter

/-- The sorts of nodes. -/
inductive NodeSort where
  | expression | sequence | factor | term | restriction | composite | member | call | struct | array
deriving DecidableEq, Repr

namespace Store

open NodeSort

inductive ComparableRef where
  | member (h : Handle NodeSort.member)
  | call (h : Handle NodeSort.call)
  | struct (h : Handle NodeSort.struct)
  | array (h : Handle NodeSort.array)
deriving DecidableEq, Repr

inductive ArgRef where
  | composite (h : Handle NodeSort.composite)
  | comparable (c : ComparableRef)
deriving DecidableEq, Repr

inductive SimpleRef where
  | restriction (h : Handle NodeSort.restriction)
  | composite (h : Handle NodeSort.composite)
deriving DecidableEq, Repr

structure ExpressionNode where
  span : Span
  sequences : List (Handle NodeSort.sequence)

structure SequenceNode where
  span : Span
  factors : List (Handle NodeSort.factor)

structure FactorNode where
  span : Span
  terms : List (Handle NodeSort.term)

structure TermNode where
  span : Span
  unary : Option UnaryOp
  simple : SimpleRef
  orPos : Option Position

structure ComparisonRef where
  comparator : Comparator
  pos : Position
  arg : ArgRef

structure RestrictionNode where
  span : Span
  comparable : ComparableRef
  comparison : Option ComparisonRef

structure CompositeNode where
  span : Span
  expression : Handle NodeSort.expression

structure CallNode where
  span : Span
  name : List Leaf
  args : List ArgRef

structure StructNode where
  span : Span
  name : List Leaf
  entries : List (Leaf × ComparableRef)

structure ArrayNode where
  span : Span
  elements : List ComparableRef

end Store

open Store in
/-- A filter's tree, flat. -/
structure Store where
  root : Option (Handle NodeSort.expression) := none
  expressions : Arena NodeSort.expression ExpressionNode := {}
  sequences : Arena NodeSort.sequence SequenceNode := {}
  factors : Arena NodeSort.factor FactorNode := {}
  terms : Arena NodeSort.term TermNode := {}
  restrictions : Arena NodeSort.restriction RestrictionNode := {}
  composites : Arena NodeSort.composite CompositeNode := {}
  members : Arena NodeSort.member Member := {}
  calls : Arena NodeSort.call CallNode := {}
  structs : Arena NodeSort.struct StructNode := {}
  arrays : Arena NodeSort.array ArrayNode := {}

namespace Store

/-- A store without nodes, of the first generation. -/
def empty : Store := {}

def isEmpty (s : Store) : Bool := s.root.isNone

def nodeCount (s : Store) : Nat :=
  s.expressions.size + s.sequences.size + s.factors.size + s.terms.size + s.restrictions.size +
    s.composites.size + s.members.size + s.calls.size + s.structs.size + s.arrays.size

/-- Drops all nodes. An empty store stays as it is. -/
def release (s : Store) : Store :=
  if s.root.isNone && s.nodeCount == 0 then s
  else {
    root := none
    expressions := s.expressions.clear
    sequences := s.sequences.clear
    factors := s.factors.clear
    terms := s.terms.clear
    restrictions := s.restrictions.clear
    composites := s.composites.clear
    members := s.members.clear
    calls := s.calls.clear
    structs := s.structs.clear
    arrays := s.arrays.clear }

/-! ## Storing a tree -/

/-- Steps that store nodes. -/
abbrev Storing := StateM Store

def putExpression (n : ExpressionNode) : Storing (Handle NodeSort.expression) := fun s =>
  let (h, a) := s.expressions.alloc n
  (h, { s with expressions := a })

def putSequence (n : SequenceNode) : Storing (Handle NodeSort.sequence) := fun s =>
  let (h, a) := s.sequences.alloc n
  (h, { s with sequences := a })

def putFactor (n : FactorNode) : Storing (Handle NodeSort.factor) := fun s =>
  let (h, a) := s.factors.alloc n
  (h, { s with factors := a })

def putTerm (n : TermNode) : Storing (Handle NodeSort.term) := fun s =>
  let (h, a) := s.terms.alloc n
  (h, { s with terms := a })

def putRestriction (n : RestrictionNode) : Storing (Handle NodeSort.restriction) := fun s =>
  let (h, a) := s.restrictions.alloc n
  (h, { s with restrictions := a })

def putComposite (n : CompositeNode) : Storing (Handle NodeSort.composite) := fun s =>
  let (h, a) := s.composites.alloc n
  (h, { s with composites := a })

def putMember (n : Member) : Storing (Handle NodeSort.member) := fun s =>
  let (h, a) := s.members.alloc n
  (h, { s with members := a })

def putCall (n : CallNode) : Storing (Handle NodeSort.call) := fun s =>
  let (h, a) := s.calls.alloc n
  (h, { s with calls := a })

def putStruct (n : StructNode) : Storing (Handle NodeSort.struct) := fun s =>
  let (h, a) := s.structs.alloc n
  (h, { s with structs := a })

def putArray (n : ArrayNode) : Storing (Handle NodeSort.array) := fun s =>
  let (h, a) := s.arrays.alloc n
  (h, { s with arrays := a })

mutual

def storeExpression : Expression → Storing (Handle NodeSort.expression)
  | ⟨span, sequences⟩ => do putExpression ⟨span, ← storeSequences sequences⟩

def storeSequences : List Sequence → Storing (List (Handle NodeSort.sequence))
  | [] => pure []
  | s :: ss => do return (← storeSequence s) :: (← storeSequences ss)

def storeSequence : Sequence → Storing (Handle NodeSort.sequence)
  | ⟨span, factors⟩ => do putSequence ⟨span, ← storeFactors factors⟩

def storeFactors : List Factor → Storing (List (Handle NodeSort.factor))
  | [] => pure []
  | f :: fs => do return (← storeFactor f) :: (← storeFactors fs)

def storeFactor : Factor → Storing (Handle NodeSort.factor)
  | ⟨span, terms⟩ => do putFactor ⟨span, ← storeTerms terms⟩

def storeTerms : List Term → Storing (List (Handle NodeSort.term))
  | [] => pure []
  | t :: ts => do return (← storeTerm t) :: (← storeTerms ts)

def storeTerm : Term → Storing (Handle NodeSort.term)
  | ⟨span, unary, simple, orPos⟩ => do putTerm ⟨span, unary, ← storeSimple simple, orPos⟩

def storeSimple : Simple → Storing SimpleRef
  | .restriction r => do return .restriction (← storeRestriction r)
  | .composite c => do return .composite (← storeComposite c)

def storeRestriction : Restriction → Storing (Handle NodeSort.restriction)
  | ⟨span, comparable, none⟩ => do putRestriction ⟨span, ← storeComparable comparable, none⟩
  | ⟨span, comparable, some comparison⟩ => do
    let comparable ← storeComparable comparable
    putRestriction ⟨span, comparable, some (← storeComparison comparison)⟩

def storeComparison : Comparison → Storing ComparisonRef
  | ⟨comparator, pos, arg⟩ => do return ⟨comparator, pos, ← storeArg arg⟩

def storeComposite : Composite → Storing (Handle NodeSort.composite)
  | ⟨span, expression⟩ => do putComposite ⟨span, ← storeExpression expression⟩

def storeComparable : Comparable → Storing ComparableRef
  | .member m => do return .member (← putMember m)
  | .call c => do return .call (← storeCall c)
  | .struct s => do return .struct (← storeStruct s)
  | .array a => do return .array (← storeArray a)

def storeArg : Arg → Storing ArgRef
  | .composite c => do return .composite (← storeComposite c)
  | .comparable c => do return .comparable (← storeComparable c)

def storeArgs : List Arg → Storing (List ArgRef)
  | [] => pure []
  | a :: as => do return (← storeArg a) :: (← storeArgs as)

def storeCall : Call → Storing (Handle NodeSort.call)
  | ⟨span, name, args⟩ => do putCall ⟨span, name, ← storeArgs args⟩

def storeStruct : StructLiteral → Storing (Handle NodeSort.struct)
  | ⟨span, name, entries⟩ => do putStruct ⟨span, name, ← storeEntries entries⟩

def storeEntries : List StructEntry → Storing (List (Leaf × ComparableRef))
  | [] => pure []
  | e :: es => do return (← storeEntry e) :: (← storeEntries es)

def storeEntry : StructEntry → Storing (Leaf × ComparableRef)
  | ⟨name, value⟩ => do return (name, ← storeComparable value)

def storeArray : ArrayLiteral → Storing (Handle NodeSort.array)
  | ⟨span, elements⟩ => do putArray ⟨span, ← storeElements elements⟩

def storeElements : List Comparable → Storing (List ComparableRef)
  | [] => pure []
  | c :: cs => do return (← storeComparable c) :: (← storeElements cs)

end

/-- Empties a store and fills it with a tree. -/
def load (s : Store) : Option Expression → Store
  | none => s.release
  | some e =>
    let (h, s) := storeExpression e s.release
    { s with root := some h }

mutual

/-- The expression behind a handle, its nodes followed at most `fuel` deep. -/
def expressionAt? (s : Store) : Nat → Handle NodeSort.expression → Option Expression
  | 0, _ => none
  | fuel + 1, h => do
    let n ← s.expressions.get? h
    return ⟨n.span, ← n.sequences.mapM fun h => s.sequenceAt? fuel h⟩

def sequenceAt? (s : Store) : Nat → Handle NodeSort.sequence → Option Sequence
  | 0, _ => none
  | fuel + 1, h => do
    let n ← s.sequences.get? h
    return ⟨n.span, ← n.factors.mapM fun h => s.factorAt? fuel h⟩

def factorAt? (s : Store) : Nat → Handle NodeSort.factor → Option Factor
  | 0, _ => none
  | fuel + 1, h => do
    let n ← s.factors.get? h
    return ⟨n.span, ← n.terms.mapM fun h => s.termAt? fuel h⟩

def termAt? (s : Store) : Nat → Handle NodeSort.term → Option Term
  | 0, _ => none
  | fuel + 1, h => do
    let n ← s.terms.get? h
    let simple ← match n.simple with
      | .restriction r => (s.restrictionAt? fuel r).map Simple.restriction
      | .composite c => (s.compositeAt? fuel c).map Simple.composite
    return ⟨n.span, n.unary, simple, n.orPos⟩

def restrictionAt? (s : Store) : Nat → Handle NodeSort.restriction → Option Restriction
  | 0, _ => none
  | fuel + 1, h => do
    let n ← s.restrictions.get? h
    let comparable ← s.comparableAt? fuel n.comparable
    match n.comparison with
    | none => return ⟨n.span, comparable, none⟩
    | some c => return ⟨n.span, comparable, some ⟨c.comparator, c.pos, ← s.argAt? fuel c.arg⟩⟩

def compositeAt? (s : Store) : Nat → Handle NodeSort.composite → Option Composite
  | 0, _ => none
  | fuel + 1, h => do
    let n ← s.composites.get? h
    return ⟨n.span, ← s.expressionAt? fuel n.expression⟩

def comparableAt? (s : Store) : Nat → ComparableRef → Option Comparable
  | 0, _ => none
  | _ + 1, .member h => (s.members.get? h).map .member
  | fuel + 1, .call h => do
    let n ← s.calls.get? h
    return .call ⟨n.span, n.name, ← n.args.mapM fun a => s.argAt? fuel a⟩
  | fuel + 1, .struct h => do
    let n ← s.structs.get? h
    let entries ← n.entries.mapM fun e => (s.comparableAt? fuel e.2).map fun v => ⟨e.1, v⟩
    return .struct ⟨n.span, n.name, entries⟩
  | fuel + 1, .array h => do
    let n ← s.arrays.get? h
    return .array ⟨n.span, ← n.elements.mapM fun c => s.comparableAt? fuel c⟩

def argAt? (s : Store) : Nat → ArgRef → Option Arg
  | 0, _ => none
  | fuel + 1, .composite h => (s.compositeAt? fuel h).map .composite
  | fuel + 1, .comparable c => (s.comparableAt? fuel c).map .comparable

end

/-- Following handles never goes deeper than this: a path to a leaf meets each node at most once,
and a node and the reference to it take two steps. -/
def reach (s : Store) : Nat := 2 * s.nodeCount + 2

def expression? (s : Store) (h : Handle NodeSort.expression) : Option Expression :=
  s.expressionAt? s.reach h

def arg? (s : Store) (a : ArgRef) : Option Arg := s.argAt? s.reach a

/-- The tree that is stored. -/
def tree? (s : Store) : Option Expression := s.root.bind s.expression?

/-- The text of the tree. -/
def render (q : Quoting) (s : Store) : String := (s.tree?.map (Expression.render q)).getD ""

/-- The leaves of the tree in the order of the text. -/
def leaves (s : Store) : List Leaf := (s.tree?.map Expression.leaves).getD []

/-- The stretch of text of the whole filter. -/
def span? (s : Store) : Option Span :=
  (s.root.bind s.expressions.get?).map ExpressionNode.span

/-- The handle behind a reference that leads to nothing, as it is shown. -/
def ArgRef.shown : ArgRef → String
  | .composite h => h.shown
  | .comparable (.member h) => h.shown
  | .comparable (.call h) => h.shown
  | .comparable (.struct h) => h.shown
  | .comparable (.array h) => h.shown

/-- The arguments of the comparisons that stand directly in a term of the root, in the order of the
text. -/
def rootArgs (s : Store) : List ArgRef :=
  let sequences := ((s.root.bind s.expressions.get?).map ExpressionNode.sequences).getD []
  let factors := sequences.flatMap fun h => ((s.sequences.get? h).map SequenceNode.factors).getD []
  let terms := factors.flatMap fun h => ((s.factors.get? h).map FactorNode.terms).getD []
  terms.filterMap fun h => do
    match (← s.terms.get? h).simple with
    | .composite _ => none
    | .restriction r => (← s.restrictions.get? r).comparison.map ComparisonRef.arg

end Store

end ListQuery.Filter
