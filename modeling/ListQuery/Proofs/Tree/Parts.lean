/-
Trees over the tokens that they were read from. A node is made of parts, which are tokens of its own
and the nodes below it. It stands on a run of tokens if its parts stand on them one behind the other
and its span goes from the first of them to the last (`Node.Stands`). The tokens then play the parts
that the tree has for them (`Node.Stands.fits`).
-/
import Mathlib.Data.List.Forall2
import ListQuery.Proofs.Token.Cover
import ListQuery.Proofs.Tree.Roles

namespace ListQuery.Filter

/-- One token ends before another starts. -/
def Token.Before (a b : Token) : Prop := a.stop ≤ b.pos.offset

namespace Token

theorem offset_le_stop (t : Token) : t.pos.offset ≤ t.stop := Nat.le_add_right _ _

theorem Before.trans {a b c : Token} (hab : a.Before b) (hbc : b.Before c) : a.Before c :=
  (Nat.le_trans hab b.offset_le_stop).trans hbc

instance : IsTrans Token Before := ⟨fun _ _ _ => Before.trans⟩

theorem first_le {ts : List Token} {first t : Token} (h : ts.Pairwise Before)
    (hfirst : ts.head? = some first) (ht : t ∈ ts) : first.pos.offset ≤ t.pos.offset := by
  cases ts with
  | nil => cases ht
  | cons a ts =>
    obtain rfl : a = first := Option.some.inj hfirst
    rcases List.mem_cons.1 ht with rfl | ht
    · exact Nat.le_refl _
    · exact Nat.le_trans a.offset_le_stop (List.rel_of_pairwise_cons h ht)

theorem le_last {ts : List Token} {last t : Token} (h : ts.Pairwise Before)
    (hlast : ts.getLast? = some last) (ht : t ∈ ts) : t.stop ≤ last.stop := by
  obtain ⟨before, rfl⟩ := List.getLast?_eq_some_iff.1 hlast
  rcases List.mem_append.1 ht with ht | ht
  · have hbefore : t.Before last := (List.pairwise_append.1 h).2.2 t ht last List.mem_cons_self
    exact Nat.le_trans hbefore last.offset_le_stop
  · rw [List.mem_singleton.1 ht]

end Token

/-- The tokens of a text end one before the other starts. -/
theorem tokens_before (input : String) : (tokenize input).Pairwise Token.Before := by
  have hchain : (tokenize input).IsChain Token.Before :=
    (chain_tokens input).imp fun _ _ h => Nat.le_of_eq h.offset.symm
  exact hchain.pairwise

def Simple.node : Simple → Node
  | .restriction r => .restriction r
  | .composite c => .composite c

def Arg.node : Arg → Node
  | .composite c => .composite c
  | .comparable c => .comparable c

/-- What a node is made of. -/
inductive Part where
  /-- A token of the node itself. -/
  | token (r : Role)
  /-- An operator, and the place of it that the tree keeps. -/
  | operator (p : Piece) (pos : Option Position)
  /-- The place that the tree keeps where no operator comes. -/
  | unjoined (pos : Option Position)
  | node (n : Node)

namespace Part

def node? : Part → Option Node
  | node n => some n
  | _ => none

def ofPath (path : List Leaf) : List Part := (Role.ofPath path).map token

def ofUnary (u : Option UnaryOp) : List Part := (Role.ofUnary u).map token

def ofComparison (c : Comparison) : List Part :=
  [operator ⟨c.comparator.kind, c.comparator.text⟩ (some c.pos), node c.arg.node]

def ofEntry (e : StructEntry) : List Part :=
  [token (.leaf e.name), token .colon, node (.comparable e.value)]

/-- Terms, and after each one the place of its `OR`. -/
def ofTerms : List Term → List Part
  | [] => []
  | [t] => [node (.term t), unjoined t.orPos]
  | t :: ts => node (.term t) :: operator ⟨.orWord, "OR"⟩ t.orPos :: ofTerms ts

/-- Items between commas, and the delimiter that closes them. -/
def items (yss : List (List Part)) (close : Piece) : List Part :=
  [token .comma].intercalate yss ++ [token (.sign close)]

end Part

namespace Node

open Filter.Part

/-- The parts of a node in the order of the text. -/
def parts : Node → List Part
  | expression e =>
    [token (.sign ⟨.andWord, "AND"⟩)].intercalate (e.sequences.map fun s => [.node (.sequence s)])
  | sequence s => s.factors.map fun f => .node (.factor f)
  | factor f => ofTerms f.terms
  | term t => ofUnary t.unary ++ [.node t.simple.node]
  | restriction r => .node (.comparable r.comparable) :: r.comparison.elim [] ofComparison
  | composite c =>
    [token (.sign ⟨.leftParen, "("⟩), .node (.expression c.expression),
      token (.sign ⟨.rightParen, ")"⟩)]
  | comparable (.member m) => ofPath m.path
  | comparable (.call c) =>
    ofPath c.name ++ token (.sign ⟨.leftParen, "("⟩) ::
      items (c.args.map fun a => [.node a.node]) ⟨.rightParen, ")"⟩
  | comparable (.struct s) =>
    ofPath s.name ++ token (.sign ⟨.leftBrace, "\x7b"⟩) ::
      items (s.entries.map ofEntry) ⟨.rightBrace, "\x7d"⟩
  | comparable (.array a) =>
    token (.sign ⟨.leftBracket, "["⟩) ::
      items (a.elements.map fun c => [.node (.comparable c)]) ⟨.rightBracket, "]"⟩

/-- The nodes directly below a node. -/
def children (n : Node) : List Node := n.parts.filterMap node?

def span : Node → Span
  | expression e => e.span
  | sequence s => s.span
  | factor f => f.span
  | term t => t.span
  | restriction r => r.span
  | composite c => c.span
  | comparable c => c.span

/-- The tokens of a node, by their roles. -/
def yield : Node → List Role
  | expression e => e.yield
  | sequence s => s.yield
  | factor f => f.yield
  | term t => t.yield
  | restriction r => r.yield
  | composite c => c.yield
  | comparable c => c.yield

/-- A node and all nodes below it. -/
def nodes : Node → List Node
  | expression e => e.nodes
  | sequence s => s.nodes
  | factor f => f.nodes
  | term t => t.nodes
  | restriction r => r.nodes
  | composite c => c.nodes
  | comparable c => c.nodes

end Node

/-- The token plays the part: it is the leaf, or it is of the kind of a sign with one spelling. -/
def Role.Fits : Role → Token → Prop
  | leaf l, t => l.token = t
  | sign p, t => t.kind = p.kind ∧ p.kind.spelling? = some p.text

/-- The span goes from the front of the first token to the end of the last one. -/
def Span.Covers (span : Span) (ts : List Token) : Prop :=
  ∃ first last, ts.head? = some first ∧ ts.getLast? = some last ∧ span = ⟨first.pos, last.stop⟩

mutual

/-- The tokens are those of the node, and its span goes from the first to the last of them. -/
inductive Node.Stands : Node → List Token → Prop where
  | intro {n : Node} {ts : List Token} (parts : Part.Stand n.parts ts) (span : n.span.Covers ts) :
    Node.Stands n ts

/-- The parts stand on the tokens one behind the other. Where a place of an operator is kept, it is
that of its token, and where no operator comes, none is kept. -/
inductive Part.Stand : List Part → List Token → Prop where
  | nil : Part.Stand [] []
  | token {r : Role} {t : Token} {ps : List Part} {ts : List Token} (fits : r.Fits t)
      (tail : Part.Stand ps ts) : Part.Stand (.token r :: ps) (t :: ts)
  | operator {p : Piece} {t : Token} {ps : List Part} {ts : List Token}
      (fits : (Role.sign p).Fits t) (tail : Part.Stand ps ts) :
      Part.Stand (.operator p (some t.pos) :: ps) (t :: ts)
  | unjoined {ps : List Part} {ts : List Token} (tail : Part.Stand ps ts) :
      Part.Stand (.unjoined none :: ps) ts
  | node {n : Node} {ps : List Part} {us ts : List Token} (head : Node.Stands n us)
      (tail : Part.Stand ps ts) : Part.Stand (.node n :: ps) (us ++ ts)

end

namespace Part

theorem Stand.append {qs : List Part} {us : List Token} : ∀ {ps : List Part} {ts : List Token},
    Stand ps ts → Stand qs us → Stand (ps ++ qs) (ts ++ us)
  | _, _, .nil, h => h
  | _, _, .token fits tail, h => .token fits (tail.append h)
  | _, _, .operator fits tail, h => .operator fits (tail.append h)
  | _, _, .unjoined tail, h => .unjoined (tail.append h)
  | _, _, .node head tail, h => by
    rw [List.append_assoc]
    exact .node head (tail.append h)

theorem Stand.of_node {n : Node} {ps : List Part} {ts : List Token}
    (h : Stand (.node n :: ps) ts) : ∃ us vs, ts = us ++ vs ∧ n.Stands us ∧ Stand ps vs := by
  cases h with
  | node head tail => exact ⟨_, _, rfl, head, tail⟩

theorem Stand.of_operator {p : Piece} {pos : Option Position} {ps : List Part} {ts : List Token}
    (h : Stand (.operator p pos :: ps) ts) :
    ∃ t us, ts = t :: us ∧ (Role.sign p).Fits t ∧ pos = some t.pos ∧ Stand ps us := by
  cases h with
  | operator fits tail => exact ⟨_, _, rfl, fits, rfl, tail⟩

theorem Stand.of_unjoined {pos : Option Position} {ps : List Part} {ts : List Token}
    (h : Stand (.unjoined pos :: ps) ts) : pos = none ∧ Stand ps ts := by
  cases h with
  | unjoined tail => exact ⟨rfl, tail⟩

/-- An operator whose place does not count is a token. -/
theorem Stand.forget {p : Piece} {pos : Option Position} {ps : List Part} {ts : List Token}
    (h : Stand (.operator p pos :: ps) ts) : Stand (.token (.sign p) :: ps) ts := by
  obtain ⟨t, us, rfl, hfits, -, htail⟩ := h.of_operator
  exact .token hfits htail

theorem ofTerms_cons {t : Term} {ts : List Term} (h : ts ≠ []) :
    ofTerms (t :: ts) = node (.term t) :: operator ⟨.orWord, "OR"⟩ t.orPos :: ofTerms ts := by
  cases ts with
  | nil => exact absurd rfl h
  | cons u us => rfl

theorem stand_single {n : Node} {ts : List Token} (h : n.Stands ts) : Stand [.node n] ts := by
  rw [← List.append_nil ts]
  exact .node h .nil

theorem Stand.of_single {n : Node} {ts : List Token} (h : Stand [.node n] ts) : n.Stands ts := by
  obtain ⟨us, vs, rfl, hn, hrest⟩ := h.of_node
  cases hrest
  rwa [List.append_nil]

end Part

/-! ## Roles of the tokens -/

/-- The tokens of a part, by their roles. -/
def Part.yield : Part → List Role
  | token r => [r]
  | operator p _ => [.sign p]
  | unjoined _ => []
  | node n => n.yield

namespace Node

@[simp] theorem yield_expression (e : Expression) : (expression e).yield = e.yield := rfl
@[simp] theorem yield_sequence (s : Sequence) : (sequence s).yield = s.yield := rfl
@[simp] theorem yield_factor (f : Factor) : (factor f).yield = f.yield := rfl
@[simp] theorem yield_term (t : Term) : (term t).yield = t.yield := rfl
@[simp] theorem yield_restriction (r : Restriction) : (restriction r).yield = r.yield := rfl
@[simp] theorem yield_composite (c : Composite) : (composite c).yield = c.yield := rfl
@[simp] theorem yield_comparable (c : Comparable) : (comparable c).yield = c.yield := rfl
@[simp] theorem yield_simple (x : Simple) : x.node.yield = x.yield := by cases x <;> rfl
@[simp] theorem yield_arg (a : Arg) : a.node.yield = a.yield := by cases a <;> rfl

end Node

namespace Part

@[simp] theorem yield_token (r : Role) : (token r).yield = [r] := rfl
@[simp] theorem yield_operator (p : Piece) (pos : Option Position) :
    (operator p pos).yield = [.sign p] := rfl
@[simp] theorem yield_unjoined (pos : Option Position) : (unjoined pos).yield = [] := rfl
@[simp] theorem yield_node (n : Node) : (node n).yield = n.yield := rfl

@[simp] theorem flatMap_yield_token (rs : List Role) : (rs.map token).flatMap yield = rs := by
  rw [List.flatMap_map]
  exact List.flatMap_singleton' rs

theorem flatMap_yield_intercalate (r : Role) : ∀ pss : List (List Part),
    ([token r].intercalate pss).flatMap yield = [r].intercalate (pss.map fun ps => ps.flatMap yield)
  | [] => rfl
  | [ps] => by simp
  | ps :: qs :: pss => by
    have ih := flatMap_yield_intercalate r (qs :: pss)
    rw [List.map_cons] at ih
    simp only [List.intercalate_cons_cons, List.flatMap_append, List.map_cons, ih]
    rfl

theorem flatMap_yield_ofTerms : ∀ ts : List Term,
    (ofTerms ts).flatMap yield = [.sign ⟨.orWord, "OR"⟩].intercalate (ts.map Term.yield)
  | [] => rfl
  | [t] => by simp [ofTerms]
  | t :: u :: ts => by
    have ih := flatMap_yield_ofTerms (u :: ts)
    rw [List.map_cons] at ih
    rw [ofTerms_cons (List.cons_ne_nil u ts), List.flatMap_cons, List.flatMap_cons, ih]
    simp [List.intercalate_cons_cons]

theorem flatMap_yield_ofEntry (e : StructEntry) : (ofEntry e).flatMap yield = e.yield := by
  obtain ⟨name, value⟩ := e
  simp [ofEntry, StructEntry.yield]

theorem flatMap_yield_items (yss : List (List Part)) (close : Piece) :
    (items yss close).flatMap yield =
      [Role.comma].intercalate (yss.map fun ps => ps.flatMap yield) ++ [.sign close] := by
  rw [items, List.flatMap_append, flatMap_yield_intercalate]
  rfl

end Part

open Filter.Part in
/-- The tokens of a node are those of its parts. -/
theorem Node.yield_eq (n : Node) : n.yield = n.parts.flatMap Part.yield := by
  cases n with
  | expression e =>
    obtain ⟨span, ss⟩ := e
    simp [parts, Expression.yield, sequenceYields_eq, flatMap_yield_intercalate, Function.comp_def]
  | sequence s =>
    obtain ⟨span, fs⟩ := s
    simp [parts, Sequence.yield, factorYields_eq, List.flatMap_def, Function.comp_def]
  | factor f =>
    obtain ⟨span, ts⟩ := f
    simp [parts, Factor.yield, termYields_eq, flatMap_yield_ofTerms]
  | term t =>
    obtain ⟨span, u, x, orPos⟩ := t
    simp [parts, Term.yield, ofUnary]
  | restriction r =>
    obtain ⟨span, c, comparison⟩ := r
    cases comparison with
    | none => simp [parts, Restriction.yield]
    | some x =>
      obtain ⟨comparator, pos, a⟩ := x
      simp [parts, Restriction.yield, Comparison.yield, ofComparison, Role.ofComparator]
  | composite c =>
    obtain ⟨span, e⟩ := c
    simp [parts, Composite.yield]
  | comparable c =>
    cases c with
    | member m => simp [parts, Comparable.yield, Part.ofPath]
    | call c =>
      obtain ⟨span, name, args⟩ := c
      simp [parts, Comparable.yield, Call.yield, argYields_eq, Part.ofPath, flatMap_yield_items,
        Function.comp_def]
    | struct s =>
      obtain ⟨span, name, entries⟩ := s
      simp [parts, Comparable.yield, StructLiteral.yield, entryYields_eq, Part.ofPath,
        flatMap_yield_items, flatMap_yield_ofEntry, Function.comp_def]
    | array a =>
      obtain ⟨span, elements⟩ := a
      simp [parts, Comparable.yield, ArrayLiteral.yield, elementYields_eq, flatMap_yield_items,
        Function.comp_def]

mutual

theorem Node.Stands.fits : ∀ {n : Node} {ts : List Token}, n.Stands ts →
    List.Forall₂ Role.Fits n.yield ts
  | n, _, .intro parts _ => by
    rw [n.yield_eq]
    exact parts.fits

theorem Part.Stand.fits : ∀ {ps : List Part} {ts : List Token}, Part.Stand ps ts →
    List.Forall₂ Role.Fits (ps.flatMap Part.yield) ts
  | _, _, .nil => .nil
  | _, _, .token fits tail => .cons fits tail.fits
  | _, _, .operator fits tail => .cons fits tail.fits
  | _, _, .unjoined tail => tail.fits
  | _, _, .node head tail => List.rel_append head.fits tail.fits

end

/-! ## Nodes of parts -/

/-- The nodes of a part. -/
def Part.nodes : Part → List Node
  | node n => n.nodes
  | _ => []

namespace Node

@[simp] theorem nodes_expression (e : Expression) : (expression e).nodes = e.nodes := rfl
@[simp] theorem nodes_sequence (s : Sequence) : (sequence s).nodes = s.nodes := rfl
@[simp] theorem nodes_factor (f : Factor) : (factor f).nodes = f.nodes := rfl
@[simp] theorem nodes_term (t : Term) : (term t).nodes = t.nodes := rfl
@[simp] theorem nodes_restriction (r : Restriction) : (restriction r).nodes = r.nodes := rfl
@[simp] theorem nodes_composite (c : Composite) : (composite c).nodes = c.nodes := rfl
@[simp] theorem nodes_comparable (c : Comparable) : (comparable c).nodes = c.nodes := rfl
@[simp] theorem nodes_simple (x : Simple) : x.node.nodes = x.nodes := by cases x <;> rfl
@[simp] theorem nodes_arg (a : Arg) : a.node.nodes = a.nodes := by cases a <;> rfl

end Node

namespace Part

@[simp] theorem nodes_token (r : Role) : (token r).nodes = [] := rfl
@[simp] theorem nodes_operator (p : Piece) (pos : Option Position) :
    (operator p pos).nodes = [] := rfl
@[simp] theorem nodes_unjoined (pos : Option Position) : (unjoined pos).nodes = [] := rfl
@[simp] theorem nodes_node (n : Node) : (node n).nodes = n.nodes := rfl

@[simp] theorem flatMap_nodes_token (rs : List Role) : (rs.map token).flatMap nodes = [] := by
  rw [List.flatMap_map]
  exact List.flatMap_eq_nil_iff.2 fun _ _ => rfl

theorem flatMap_nodes_intercalate (r : Role) : ∀ pss : List (List Part),
    ([token r].intercalate pss).flatMap nodes = pss.flatMap fun ps => ps.flatMap nodes
  | [] => rfl
  | [ps] => by simp
  | ps :: qs :: pss => by
    have ih := flatMap_nodes_intercalate r (qs :: pss)
    rw [List.intercalate_cons_cons, List.flatMap_append, List.flatMap_append, ih]
    simp

theorem flatMap_nodes_ofTerms : ∀ ts : List Term,
    (ofTerms ts).flatMap nodes = ts.flatMap Term.nodes
  | [] => rfl
  | [_] => rfl
  | t :: u :: ts => by
    rw [ofTerms_cons (List.cons_ne_nil u ts), List.flatMap_cons, List.flatMap_cons,
      flatMap_nodes_ofTerms (u :: ts)]
    rfl

theorem flatMap_nodes_ofEntry (e : StructEntry) : (ofEntry e).flatMap nodes = e.nodes := by
  obtain ⟨name, value⟩ := e
  simp [ofEntry, StructEntry.nodes]

theorem flatMap_nodes_items (pss : List (List Part)) (close : Piece) :
    (items pss close).flatMap nodes = pss.flatMap fun ps => ps.flatMap nodes := by
  rw [items, List.flatMap_append, flatMap_nodes_intercalate]
  exact List.append_nil _

end Part

namespace Node

open Filter.Part in
/-- The nodes of a tree are its root and the nodes of the trees below the root. -/
theorem nodes_eq (n : Node) : n.nodes = n :: n.parts.flatMap Part.nodes := by
  cases n with
  | expression e =>
    obtain ⟨span, ss⟩ := e
    simp [parts, Expression.nodes, sequenceNodes_eq, flatMap_nodes_intercalate, List.flatMap_map]
  | sequence s =>
    obtain ⟨span, fs⟩ := s
    simp [parts, Sequence.nodes, factorNodes_eq, List.flatMap_map]
  | factor f =>
    obtain ⟨span, ts⟩ := f
    simp [parts, Factor.nodes, termNodes_eq, flatMap_nodes_ofTerms]
  | term t =>
    obtain ⟨span, u, x, orPos⟩ := t
    simp [parts, Term.nodes, ofUnary]
  | restriction r =>
    obtain ⟨span, c, comparison⟩ := r
    cases comparison with
    | none => simp [parts, Restriction.nodes]
    | some x =>
      obtain ⟨comparator, pos, a⟩ := x
      simp [parts, Restriction.nodes, Comparison.nodes, ofComparison]
  | composite c =>
    obtain ⟨span, e⟩ := c
    simp [parts, Composite.nodes]
  | comparable c =>
    cases c with
    | member m => simp [parts, Comparable.nodes, ofPath]
    | call c =>
      obtain ⟨span, name, args⟩ := c
      simp [parts, Comparable.nodes, Call.nodes, argNodes_eq, ofPath, flatMap_nodes_items,
        List.flatMap_map]
    | struct s =>
      obtain ⟨span, name, entries⟩ := s
      simp [parts, Comparable.nodes, StructLiteral.nodes, entryNodes_eq, ofPath,
        flatMap_nodes_items, flatMap_nodes_ofEntry, List.flatMap_map]
    | array a =>
      obtain ⟨span, elements⟩ := a
      simp [parts, Comparable.nodes, ArrayLiteral.nodes, elementNodes_eq, flatMap_nodes_items,
        List.flatMap_map]

end Node

end ListQuery.Filter
