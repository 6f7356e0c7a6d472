/-
A tree is known from its shape and the tokens that it stands on: all of its places are those of the
tokens. So where two trees of one shape stand on tokens that differ in their places only, the trees
differ in their places only, and in the same way (`Expression.eq_moved`).
-/
import ListQuery.Proofs.Tree.Moved
import ListQuery.Proofs.Tree.Parts

namespace ListQuery.Filter

def Node.unplaced : Node → Node
  | .expression e => .expression e.unplaced
  | .sequence s => .sequence s.unplaced
  | .factor f => .factor f.unplaced
  | .term t => .term t.unplaced
  | .restriction r => .restriction r.unplaced
  | .composite c => .composite c.unplaced
  | .comparable c => .comparable c.unplaced

theorem Simple.node_unplaced (x : Simple) : x.unplaced.node = x.node.unplaced := by
  cases x <;> rfl

theorem Arg.node_unplaced (a : Arg) : a.unplaced.node = a.node.unplaced := by
  cases a <;> rfl

def Role.unplaced : Role → Role
  | leaf l => leaf l.unplaced
  | sign p => sign p

namespace Part

def unplaced : Part → Part
  | token r => token r.unplaced
  | operator p pos => operator p (pos.map fun _ => .start)
  | unjoined pos => unjoined (pos.map fun _ => .start)
  | node n => node n.unplaced

theorem map_intercalate (p : Piece) : ∀ pss : List (List Part),
    ([token (.sign p)].intercalate pss).map unplaced =
      [token (.sign p)].intercalate (pss.map fun ps => ps.map unplaced)
  | [] => rfl
  | [ps] => by simp
  | ps :: qs :: pss => by
    have ih := map_intercalate p (qs :: pss)
    rw [List.map_cons] at ih
    simp only [List.intercalate_cons_cons, List.map_append, List.map_cons, ih]
    rfl

theorem map_ofPath (path : List Leaf) :
    (ofPath path).map unplaced = ofPath (path.map Leaf.unplaced) := by
  induction path with
  | nil => rfl
  | cons l path ih =>
    cases path with
    | nil => rfl
    | cons l' path =>
      simp only [ofPath, Role.ofPath, List.map_cons, List.intercalate_cons_cons, List.map_append]
        at ih ⊢
      rw [ih]
      rfl

theorem map_ofUnary (u : Option UnaryOp) : (ofUnary u).map unplaced = ofUnary u := by
  rcases u with _ | _ | _ <;> rfl

theorem map_ofTerms : ∀ ts : List Term,
    (ofTerms ts).map unplaced = ofTerms (ts.map Term.unplaced)
  | [] => rfl
  | [⟨_, _, _, _⟩] => rfl
  | ⟨_, _, _, _⟩ :: u :: ts => by
    have ih := map_ofTerms (u :: ts)
    rw [List.map_cons, ofTerms_cons (List.cons_ne_nil _ _), List.map_cons, List.map_cons,
      List.map_cons, ofTerms_cons (List.cons_ne_nil _ _), ih]
    rfl

theorem map_items (pss : List (List Part)) (close : Piece) :
    (items pss close).map unplaced = items (pss.map fun ps => ps.map unplaced) close := by
  rw [items, items, List.map_append]
  exact congrArg (· ++ _) (map_intercalate _ pss)

end Part

open Filter.Part in
/-- The parts of a node without places are its parts without places. -/
theorem Node.parts_unplaced (n : Node) : n.unplaced.parts = n.parts.map Part.unplaced := by
  cases n with
  | expression e =>
    obtain ⟨span, ss⟩ := e
    simp only [Node.unplaced, Expression.unplaced, unplacedSequences_eq, parts, map_intercalate,
      List.map_map]
    rfl
  | sequence s =>
    obtain ⟨span, fs⟩ := s
    simp only [Node.unplaced, Sequence.unplaced, unplacedFactors_eq, parts, List.map_map]
    rfl
  | factor f =>
    obtain ⟨span, ts⟩ := f
    simp only [Node.unplaced, Factor.unplaced, unplacedTerms_eq, parts, map_ofTerms]
  | term t =>
    obtain ⟨span, u, x, orPos⟩ := t
    simp only [Node.unplaced, Term.unplaced, parts, List.map_append, map_ofUnary,
      Simple.node_unplaced]
    rfl
  | restriction r =>
    obtain ⟨span, c, comparison⟩ := r
    cases comparison with
    | none => rfl
    | some x =>
      obtain ⟨comparator, pos, a⟩ := x
      simp only [Node.unplaced, Restriction.unplaced, Comparison.unplaced, parts, Option.elim,
        ofComparison, Arg.node_unplaced]
      rfl
  | composite c =>
    cases c
    rfl
  | comparable c =>
    cases c with
    | member x => exact (map_ofPath x.path).symm
    | call c =>
      obtain ⟨span, name, args⟩ := c
      simp only [Node.unplaced, Comparable.unplaced, Call.unplaced, unplacedArgs_eq, parts,
        List.map_append, List.map_cons, map_ofPath, map_items, List.map_map, Function.comp_def,
        Arg.node_unplaced]
      rfl
    | struct s =>
      obtain ⟨span, name, entries⟩ := s
      simp only [Node.unplaced, Comparable.unplaced, StructLiteral.unplaced, unplacedEntries_eq,
        parts, List.map_append, List.map_cons, map_ofPath, map_items, List.map_map]
      refine congrArg (fun pss => _ ++ _ :: items pss _) (List.map_congr_left fun e _ => ?_)
      cases e
      rfl
    | array a =>
      obtain ⟨span, elements⟩ := a
      simp only [Node.unplaced, Comparable.unplaced, ArrayLiteral.unplaced, unplacedElements_eq,
        parts, List.map_cons, map_items, List.map_map]
      rfl

section Moved

variable (m : Move)

def Node.moved : Node → Node
  | .expression e => .expression (e.moved m)
  | .sequence s => .sequence (s.moved m)
  | .factor f => .factor (f.moved m)
  | .term t => .term (t.moved m)
  | .restriction r => .restriction (r.moved m)
  | .composite c => .composite (c.moved m)
  | .comparable c => .comparable (c.moved m)

/-- The node with another place for the `OR` behind it, if it is a term. That place belongs to the
factor, since the term does not stand on the `OR`. -/
def Node.relinked (pos : Option Position) : Node → Node
  | .term t => .term { t with orPos := pos }
  | n => n

/-- The second node is the first one moved, but for the `OR` behind it. -/
def Node.MovesTo (n n' : Node) : Prop := ∃ pos, n' = (n.moved m).relinked pos

/-- The second part is the first one moved. -/
inductive Part.MovesTo : Part → Part → Prop where
  | leaf (l : Leaf) : MovesTo (.token (.leaf l)) (.token (.leaf (l.moved m)))
  | sign (p : Piece) : MovesTo (.token (.sign p)) (.token (.sign p))
  | operator (p : Piece) (pos : Position) :
    MovesTo (.operator p (some pos)) (.operator p (some (m.pos pos)))
  | unjoined : MovesTo (.unjoined none) (.unjoined none)
  | node {n n' : Node} (h : n.MovesTo m n') : MovesTo (.node n) (.node n')

end Moved

/-! ## Shapes that are alike -/

namespace Part

variable {p : Part} {r : Role} {x : Piece} {pos : Option Position} {n : Node}

theorem of_unplaced_token (h : p.unplaced = (token r).unplaced) :
    ∃ r', p = token r' ∧ r'.unplaced = r.unplaced := by
  cases p with
  | token r' => exact ⟨r', rfl, token.inj h⟩
  | _ => cases h

theorem of_unplaced_operator (h : p.unplaced = (operator x pos).unplaced) :
    ∃ pos', p = operator x pos' := by
  cases p with
  | operator y pos' => exact ⟨pos', by rw [(operator.inj h).1]⟩
  | _ => cases h

theorem of_unplaced_unjoined (h : p.unplaced = (unjoined pos).unplaced) :
    ∃ pos', p = unjoined pos' := by
  cases p with
  | unjoined pos' => exact ⟨pos', rfl⟩
  | _ => cases h

theorem of_unplaced_node (h : p.unplaced = (node n).unplaced) :
    ∃ n', p = node n' ∧ n'.unplaced = n.unplaced := by
  cases p with
  | node n' => exact ⟨n', rfl, node.inj h⟩
  | _ => cases h

theorem Stand.of_token {ps : List Part} {ts : List Token} (h : Stand (.token r :: ps) ts) :
    ∃ t us, ts = t :: us ∧ r.Fits t ∧ Stand ps us := by
  cases h with
  | token fits tail => exact ⟨_, _, rfl, fits, tail⟩

/-- Roles of one shape that tokens of one kind fill. -/
theorem movesTo_of_fits {m : Move} {r r' : Role} {t : Token} (hr : r.Fits t)
    (hr' : r'.Fits (t.moved m)) (h : r'.unplaced = r.unplaced) :
    MovesTo m (token r) (token r') := by
  cases r with
  | leaf l =>
    cases r' with
    | leaf l' =>
      obtain rfl : l.token = t := hr
      obtain rfl : l' = l.moved m := by
        obtain ⟨token, leaf⟩ := l'
        obtain rfl : token = _ := hr'
        rfl
      exact .leaf l
    | sign p => cases h
  | sign p =>
    cases r' with
    | leaf l' => cases h
    | sign p' =>
      cases h
      exact .sign p

end Part

/-- Where tokens stop is moved as where they start. -/
def Move.Keeps (m : Move) : Prop := ∀ t : Token, (t.moved m).stop = m.stop t.stop

theorem Span.Covers.moved {m : Move} (hm : m.Keeps) {span span' : Span} {ts : List Token}
    (h : span.Covers ts) (h' : span'.Covers (ts.map (Token.moved m))) : span' = span.moved m := by
  obtain ⟨first, last, hfirst, hlast, rfl⟩ := h
  obtain ⟨first', last', hfirst', hlast', rfl⟩ := h'
  rw [List.head?_map, hfirst] at hfirst'
  rw [List.getLast?_map, hlast] at hlast'
  cases hfirst'
  cases hlast'
  rw [hm]
  rfl

/-! ## Nodes from their parts -/

namespace Part

def leaf? : Part → Option Leaf
  | token (.leaf l) => some l
  | _ => none

theorem filterMap_intercalate {β : Type} (f : Part → Option β) {p : Piece}
    (hp : f (token (.sign p)) = none) : ∀ pss : List (List Part),
    ([token (.sign p)].intercalate pss).filterMap f = pss.flatMap fun ps => ps.filterMap f
  | [] => rfl
  | [ps] => by simp
  | ps :: qs :: pss => by
    rw [List.intercalate_cons_cons, List.filterMap_append, List.filterMap_append,
      filterMap_intercalate f hp (qs :: pss), List.filterMap_cons_none hp]
    simp

theorem filterMap_items {β : Type} (f : Part → Option β) (hf : ∀ p, f (token (.sign p)) = none)
    (pss : List (List Part)) (close : Piece) :
    (items pss close).filterMap f = pss.flatMap fun ps => ps.filterMap f := by
  rw [items, List.filterMap_append, List.filterMap_cons_none (hf close), List.filterMap_nil,
    List.append_nil]
  exact filterMap_intercalate f (hf _) pss

theorem leaves_ofPath (path : List Leaf) : (ofPath path).filterMap leaf? = path := by
  have h : leaf? ∘ token = Role.leaf? := by
    funext r
    cases r <;> rfl
  rw [ofPath, List.filterMap_map, h]
  exact Role.leavesOf_ofPath path

theorem nodes_ofPath (path : List Leaf) : (ofPath path).filterMap node? = [] := by
  rw [ofPath, List.filterMap_map]
  exact List.filterMap_eq_nil_iff.2 fun _ _ => rfl

/-- The leaves of a name with items in brackets behind it. -/
theorem leaves_bracketed (name : List Leaf) (p close : Piece) (pss : List (List Part)) :
    (ofPath name ++ token (.sign p) :: items pss close).filterMap leaf? =
      name ++ pss.flatMap fun ps => ps.filterMap leaf? := by
  rw [List.filterMap_append, leaves_ofPath, List.filterMap_cons_none rfl,
    filterMap_items leaf? fun _ => rfl]

/-- The nodes of a name with items in brackets behind it. -/
theorem nodes_bracketed (name : List Leaf) (p close : Piece) (pss : List (List Part)) :
    (ofPath name ++ token (.sign p) :: items pss close).filterMap node? =
      pss.flatMap fun ps => ps.filterMap node? := by
  rw [List.filterMap_append, nodes_ofPath, List.filterMap_cons_none rfl,
    filterMap_items node? fun _ => rfl, List.nil_append]

variable {m : Move} {ps qs : List Part}

theorem leaves_moved (h : List.Forall₂ (MovesTo m) ps qs) :
    qs.filterMap leaf? = (ps.filterMap leaf?).map (Leaf.moved m) := by
  induction h with
  | nil => rfl
  | cons h _ ih =>
    cases h with
    | leaf l => exact congrArg (l.moved m :: ·) ih
    | _ => exact ih

theorem nodes_moved (h : List.Forall₂ (MovesTo m) ps qs) :
    List.Forall₂ (Node.MovesTo m) (ps.filterMap node?) (qs.filterMap node?) := by
  induction h with
  | nil => exact .nil
  | cons h _ ih =>
    cases h with
    | node h => exact .cons h ih
    | _ => exact ih

end Part

section Rebuild

variable {m : Move}

/-- Nodes of one kind that move one by one. -/
theorem eq_map_of_movesTo {α : Type} {f : α → Node} {g : α → α}
    (h : ∀ a b, (f a).MovesTo m (f b) → b = g a) : ∀ {as bs : List α},
    List.Forall₂ (Node.MovesTo m) (as.map f) (bs.map f) → bs = as.map g
  | [], [], _ => rfl
  | [], _ :: _, hs => by cases hs
  | _ :: _, [], hs => by cases hs
  | a :: as, b :: bs, hs => by
    obtain ⟨hhead, htail⟩ := List.forall₂_cons.1 hs
    rw [List.map_cons, ← h a b hhead, ← eq_map_of_movesTo h htail]

theorem Node.movesTo_sequence (s s' : Sequence) (h : (sequence s).MovesTo m (sequence s')) :
    s' = s.moved m := by
  obtain ⟨_, h⟩ := h
  exact sequence.inj h

theorem Node.movesTo_factor (f f' : Factor) (h : (factor f).MovesTo m (factor f')) :
    f' = f.moved m := by
  obtain ⟨_, h⟩ := h
  exact factor.inj h

theorem Node.movesTo_comparable (c c' : Comparable) (h : (comparable c).MovesTo m (comparable c')) :
    c' = c.moved m := by
  obtain ⟨_, h⟩ := h
  exact comparable.inj h

theorem Node.movesTo_simple (x x' : Simple) (h : x.node.MovesTo m x'.node) : x' = x.moved m := by
  obtain ⟨_, h⟩ := h
  cases x <;> cases x' <;> cases h <;> rfl

theorem Node.movesTo_arg (a a' : Arg) (h : a.node.MovesTo m a'.node) : a' = a.moved m := by
  obtain ⟨_, h⟩ := h
  cases a <;> cases a' <;> cases h <;> rfl

theorem Part.orPos_of_unjoined {pos pos' : Option Position}
    (h : Part.MovesTo m (unjoined pos) (unjoined pos')) : pos' = pos.map m.pos := by
  cases h
  rfl

theorem Part.orPos_of_operator {p p' : Piece} {pos pos' : Option Position}
    (h : Part.MovesTo m (operator p pos) (operator p' pos')) : pos' = pos.map m.pos := by
  cases h
  rfl

theorem Part.movesTo_term {t t' : Term} (h : Part.MovesTo m (node (.term t)) (node (.term t')))
    (hpos : t'.orPos = t.orPos.map m.pos) : t' = t.moved m := by
  obtain ⟨span, unary, simple, orPos⟩ := t
  cases h with
  | node h =>
    obtain ⟨pos, h⟩ := h
    obtain rfl := Node.term.inj h
    obtain rfl : pos = orPos.map m.pos := hpos
    rfl

/-- The places of the `OR`s are those between the terms. -/
theorem Factor.terms_moved : ∀ {ts ts' : List Term}, ts'.length = ts.length →
    List.Forall₂ (Part.MovesTo m) (Part.ofTerms ts) (Part.ofTerms ts') →
      ts' = ts.map (Term.moved m)
  | [], [], _, _ => rfl
  | [t], [t'], _, h => by
    obtain ⟨ht, h⟩ := List.forall₂_cons.1 h
    obtain ⟨hpos, -⟩ := List.forall₂_cons.1 h
    rw [Part.movesTo_term ht (Part.orPos_of_unjoined hpos), List.map_singleton]
  | t :: u :: ts, t' :: u' :: ts', hlen, h => by
    rw [Part.ofTerms_cons (List.cons_ne_nil _ _), Part.ofTerms_cons (List.cons_ne_nil _ _)] at h
    obtain ⟨ht, h⟩ := List.forall₂_cons.1 h
    obtain ⟨hpos, h⟩ := List.forall₂_cons.1 h
    rw [Part.movesTo_term ht (Part.orPos_of_operator hpos),
      Factor.terms_moved (by simpa using hlen) h, ← List.map_cons]

theorem filterMap_node {α : Type} (f : α → Node) (as : List α) :
    (as.map fun a => Part.node (f a)).filterMap Part.node? = as.map f := by
  rw [List.filterMap_map]
  exact congrFun (List.filterMap_eq_map (f := f)) as

theorem flatMap_node {α : Type} (f : α → Node) (as : List α) :
    (as.map fun a => [Part.node (f a)]).flatMap (fun ps => ps.filterMap Part.node?) = as.map f := by
  rw [List.flatMap_map, ← List.flatMap_pure_eq_map]
  rfl

theorem flatMap_leaf {α : Type} (f : α → Node) (as : List α) :
    (as.map fun a => [Part.node (f a)]).flatMap (fun ps => ps.filterMap Part.leaf?) = [] :=
  List.flatMap_eq_nil_iff.2 fun ps hps => by
    obtain ⟨a, -, rfl⟩ := List.mem_map.1 hps
    rfl

theorem flatMap_node_ofEntry (es : List StructEntry) :
    (es.map Part.ofEntry).flatMap (fun ps => ps.filterMap Part.node?) =
      es.map fun e => .comparable e.value := by
  rw [List.flatMap_map, ← List.flatMap_pure_eq_map]
  rfl

theorem flatMap_leaf_ofEntry (es : List StructEntry) :
    (es.map Part.ofEntry).flatMap (fun ps => ps.filterMap Part.leaf?) =
      es.map StructEntry.name := by
  rw [List.flatMap_map, ← List.flatMap_pure_eq_map]
  rfl

open Filter.Part

theorem Expression.moved_of_parts {e e' : Expression} (hspan : e'.span = e.span.moved m)
    (h : List.Forall₂ (Part.MovesTo m) (Node.expression e).parts (Node.expression e').parts) :
    e' = e.moved m := by
  obtain ⟨span, ss⟩ := e
  obtain ⟨span', ss'⟩ := e'
  obtain rfl : span' = span.moved m := hspan
  have hnodes := nodes_moved h
  simp only [Node.parts, filterMap_intercalate node? rfl, flatMap_node] at hnodes
  rw [Expression.moved, movedSequences_eq, eq_map_of_movesTo Node.movesTo_sequence hnodes]

theorem Sequence.moved_of_parts {s s' : Sequence} (hspan : s'.span = s.span.moved m)
    (h : List.Forall₂ (Part.MovesTo m) (Node.sequence s).parts (Node.sequence s').parts) :
    s' = s.moved m := by
  obtain ⟨span, fs⟩ := s
  obtain ⟨span', fs'⟩ := s'
  obtain rfl : span' = span.moved m := hspan
  have hnodes := nodes_moved h
  simp only [Node.parts, filterMap_node] at hnodes
  rw [Sequence.moved, movedFactors_eq, eq_map_of_movesTo Node.movesTo_factor hnodes]

theorem Factor.moved_of_parts {f f' : Factor} (hspan : f'.span = f.span.moved m)
    (hlen : f'.terms.length = f.terms.length)
    (h : List.Forall₂ (Part.MovesTo m) (Node.factor f).parts (Node.factor f').parts) :
    f' = f.moved m := by
  obtain ⟨span, ts⟩ := f
  obtain ⟨span', ts'⟩ := f'
  obtain rfl : span' = span.moved m := hspan
  have hterms : ts' = ts.map (Term.moved m) := Factor.terms_moved hlen h
  rw [Factor.moved, movedTerms_eq, hterms]

theorem Term.moved_of_parts {t t' : Term} (hspan : t'.span = t.span.moved m)
    (hunary : t'.unary = t.unary)
    (h : List.Forall₂ (Part.MovesTo m) (Node.term t).parts (Node.term t').parts) :
    (Node.term t).MovesTo m (.term t') := by
  obtain ⟨span, unary, x, orPos⟩ := t
  obtain ⟨span', unary', x', orPos'⟩ := t'
  obtain rfl : span' = span.moved m := hspan
  obtain rfl : unary' = unary := hunary
  have hx := nodes_moved h
  have hnone : (ofUnary unary').filterMap node? = [] := by rcases unary' with _ | _ | _ <;> rfl
  simp only [Node.parts, List.filterMap_append, hnone, List.nil_append] at hx
  obtain ⟨hx, -⟩ := List.forall₂_cons.1 hx
  obtain rfl := Node.movesTo_simple _ _ hx
  exact ⟨orPos', rfl⟩

theorem Restriction.moved_of_parts {r r' : Restriction} (hspan : r'.span = r.span.moved m)
    (hcomparator : r'.comparison.map Comparison.comparator = r.comparison.map Comparison.comparator)
    (h : List.Forall₂ (Part.MovesTo m) (Node.restriction r).parts (Node.restriction r').parts) :
    r' = r.moved m := by
  obtain ⟨span, c, comparison⟩ := r
  obtain ⟨span', c', comparison'⟩ := r'
  obtain rfl : span' = span.moved m := hspan
  obtain ⟨hc, h⟩ := List.forall₂_cons.1 h
  cases hc with
  | node hc =>
    obtain rfl := Node.movesTo_comparable _ _ hc
    cases comparison with
    | none =>
      obtain rfl := Option.map_eq_none_iff.1 hcomparator
      rfl
    | some x =>
      obtain ⟨x', rfl, hop⟩ := Option.map_eq_some_iff.1 hcomparator
      obtain ⟨op, pos, a⟩ := x
      obtain ⟨op', pos', a'⟩ := x'
      obtain rfl : op' = op := hop
      obtain ⟨hpos, h⟩ := List.forall₂_cons.1 h
      obtain ⟨ha, -⟩ := List.forall₂_cons.1 h
      cases orPos_of_operator hpos
      cases ha with
      | node ha =>
        obtain rfl := Node.movesTo_arg _ _ ha
        rfl

theorem Composite.moved_of_parts {c c' : Composite} (hspan : c'.span = c.span.moved m)
    (h : List.Forall₂ (Part.MovesTo m) (Node.composite c).parts (Node.composite c').parts) :
    c' = c.moved m := by
  obtain ⟨span, e⟩ := c
  obtain ⟨span', e'⟩ := c'
  obtain rfl : span' = span.moved m := hspan
  obtain ⟨he, -⟩ := List.forall₂_cons.1 (nodes_moved h)
  obtain ⟨_, he⟩ := he
  obtain rfl := Node.expression.inj he
  rfl

theorem Member.moved_of_parts {x x' : Member} (hspan : x'.span = x.span.moved m)
    (h : List.Forall₂ (Part.MovesTo m) (Node.comparable (.member x)).parts
      (Node.comparable (.member x')).parts) : x' = x.moved m := by
  obtain ⟨span, value, fields⟩ := x
  obtain ⟨span', value', fields'⟩ := x'
  obtain rfl : span' = span.moved m := hspan
  have hpath := leaves_moved h
  simp only [Node.parts, leaves_ofPath, Member.path, List.map_cons, List.cons.injEq] at hpath
  rw [hpath.1, hpath.2]
  rfl

theorem Call.moved_of_parts {c c' : Call} (hspan : c'.span = c.span.moved m)
    (h : List.Forall₂ (Part.MovesTo m) (Node.comparable (.call c)).parts
      (Node.comparable (.call c')).parts) : c' = c.moved m := by
  obtain ⟨span, name, args⟩ := c
  obtain ⟨span', name', args'⟩ := c'
  obtain rfl : span' = span.moved m := hspan
  have hname := leaves_moved h
  have hargs := nodes_moved h
  simp only [Node.parts, leaves_bracketed, flatMap_leaf, List.append_nil] at hname
  simp only [Node.parts, nodes_bracketed, flatMap_node] at hargs
  rw [Call.moved, movedArgs_eq, eq_map_of_movesTo Node.movesTo_arg hargs, hname]

theorem StructEntry.map_moved {es es' : List StructEntry}
    (hnames : es'.map StructEntry.name = (es.map StructEntry.name).map (Leaf.moved m))
    (hvalues : List.Forall₂ (Node.MovesTo m) (es.map fun e => .comparable e.value)
      (es'.map fun e => .comparable e.value)) : es' = es.map (StructEntry.moved m) := by
  induction es generalizing es' with
  | nil => exact List.map_eq_nil_iff.1 hnames
  | cons e es ih =>
    cases es' with
    | nil => cases hnames
    | cons e' es' =>
      obtain ⟨name, value⟩ := e
      obtain ⟨name', value'⟩ := e'
      obtain ⟨hname, hrest⟩ := List.cons.inj hnames
      obtain ⟨hvalue, hrest'⟩ := List.forall₂_cons.1 hvalues
      obtain rfl : name' = name.moved m := hname
      obtain rfl : value' = value.moved m := Node.movesTo_comparable _ _ hvalue
      rw [ih hrest hrest']
      rfl

theorem StructLiteral.moved_of_parts {s s' : StructLiteral} (hspan : s'.span = s.span.moved m)
    (hlen : s'.name.length = s.name.length)
    (h : List.Forall₂ (Part.MovesTo m) (Node.comparable (.struct s)).parts
      (Node.comparable (.struct s')).parts) : s' = s.moved m := by
  obtain ⟨span, name, entries⟩ := s
  obtain ⟨span', name', entries'⟩ := s'
  obtain rfl : span' = span.moved m := hspan
  have hleaves := leaves_moved h
  have hvalues := nodes_moved h
  simp only [Node.parts, leaves_bracketed, flatMap_leaf_ofEntry, List.map_append] at hleaves
  simp only [Node.parts, nodes_bracketed, flatMap_node_ofEntry] at hvalues
  obtain ⟨hname, hkeys⟩ := List.append_inj hleaves (by simpa using hlen)
  rw [StructLiteral.moved, movedEntries_eq, StructEntry.map_moved hkeys hvalues, hname]

theorem ArrayLiteral.moved_of_parts {a a' : ArrayLiteral} (hspan : a'.span = a.span.moved m)
    (h : List.Forall₂ (Part.MovesTo m) (Node.comparable (.array a)).parts
      (Node.comparable (.array a')).parts) : a' = a.moved m := by
  obtain ⟨span, elements⟩ := a
  obtain ⟨span', elements'⟩ := a'
  obtain rfl : span' = span.moved m := hspan
  have helements := nodes_moved h
  have hnodes (xs : List Comparable) (span : Span) :
      (Node.comparable (.array ⟨span, xs⟩)).parts.filterMap node? = xs.map Node.comparable :=
    (nodes_bracketed [] _ _ _).trans (flatMap_node _ xs)
  rw [hnodes, hnodes] at helements
  rw [ArrayLiteral.moved, movedElements_eq,
    eq_map_of_movesTo Node.movesTo_comparable helements]

theorem Comparable.moved_of_parts {c c' : Comparable} (hshape : c'.unplaced = c.unplaced)
    (hspan : c'.span = c.span.moved m)
    (h : List.Forall₂ (Part.MovesTo m) (Node.comparable c).parts (Node.comparable c').parts) :
    c' = c.moved m := by
  cases c with
  | member x =>
    cases c' with
    | member x' => rw [Member.moved_of_parts hspan h, Comparable.moved]
    | _ => cases hshape
  | call x =>
    cases c' with
    | call x' => rw [Call.moved_of_parts hspan h, Comparable.moved]
    | _ => cases hshape
  | struct x =>
    cases c' with
    | struct x' =>
      have hlen := congrArg (fun s => s.name.length) (Comparable.struct.inj hshape)
      simp only [StructLiteral.unplaced_eq, StructLiteral.moved_name, List.length_map] at hlen
      rw [StructLiteral.moved_of_parts hspan hlen h, Comparable.moved]
    | _ => cases hshape
  | array x =>
    cases c' with
    | array x' => rw [ArrayLiteral.moved_of_parts hspan h, Comparable.moved]
    | _ => cases hshape

/-- A node is moved when its span and its parts are. -/
theorem Node.movesTo_of_parts {n n' : Node} (hshape : n'.unplaced = n.unplaced)
    (hspan : n'.span = n.span.moved m) (h : List.Forall₂ (Part.MovesTo m) n.parts n'.parts) :
    n.MovesTo m n' := by
  cases n with
  | expression e =>
    cases n' with
    | expression e' => exact ⟨none, by rw [Expression.moved_of_parts hspan h]; rfl⟩
    | _ => cases hshape
  | sequence s =>
    cases n' with
    | sequence s' => exact ⟨none, by rw [Sequence.moved_of_parts hspan h]; rfl⟩
    | _ => cases hshape
  | factor f =>
    cases n' with
    | factor f' =>
      have hlen := congrArg (fun f => f.terms.length) (Node.factor.inj hshape)
      simp only [Factor.unplaced_eq, Factor.moved_terms, List.length_map] at hlen
      exact ⟨none, by rw [Factor.moved_of_parts hspan hlen h]; rfl⟩
    | _ => cases hshape
  | term t =>
    cases n' with
    | term t' =>
      have hunary := congrArg Term.unary (Node.term.inj hshape)
      simp only [Term.unplaced_eq, Term.moved_unary] at hunary
      exact Term.moved_of_parts hspan hunary h
    | _ => cases hshape
  | restriction r =>
    cases n' with
    | restriction r' =>
      have hop := congrArg (fun r => r.comparison.map Comparison.comparator)
        (Node.restriction.inj hshape)
      simp only [Restriction.unplaced_eq, Restriction.moved_comparison, Option.map_map,
        Function.comp_def, Comparison.moved_comparator] at hop
      exact ⟨none, by rw [Restriction.moved_of_parts hspan hop h]; rfl⟩
    | _ => cases hshape
  | composite c =>
    cases n' with
    | composite c' => exact ⟨none, by rw [Composite.moved_of_parts hspan h]; rfl⟩
    | _ => cases hshape
  | comparable c =>
    cases n' with
    | comparable c' =>
      refine ⟨none, congrArg Node.comparable ?_⟩
      exact Comparable.moved_of_parts (Node.comparable.inj hshape) hspan h
    | _ => cases hshape

end Rebuild

/-! ## Trees on moved tokens -/

section Stands

variable {m : Move}

mutual

/-- Two nodes of one shape, where the tokens in front of the second one are those of the first one
moved: they stand on as many tokens, and the second one is the first one moved. -/
theorem Node.Stands.movesTo (hm : m.Keeps) : ∀ {n : Node} {us : List Token}, n.Stands us →
    ∀ {n' : Node} {us' vs vs' : List Token}, n'.Stands us' → n'.unplaced = n.unplaced →
      us' ++ vs' = us.map (Token.moved m) ++ vs →
        us' = us.map (Token.moved m) ∧ n.MovesTo m n'
  | n, us, .intro parts span, n', us', vs, vs', h', hshape, hts => by
    obtain ⟨parts', span'⟩ := h'
    have hparts : n'.parts.map Part.unplaced = n.parts.map Part.unplaced := by
      rw [← n'.parts_unplaced, hshape, n.parts_unplaced]
    obtain ⟨rfl, hmoves⟩ := parts.movesTo hm parts' hparts hts
    exact ⟨rfl, Node.movesTo_of_parts hshape (span.moved hm span') hmoves⟩

theorem Part.Stand.movesTo (hm : m.Keeps) : ∀ {ps : List Part} {ts : List Token}, Part.Stand ps ts →
    ∀ {qs : List Part} {ts' vs vs' : List Token}, Part.Stand qs ts' →
      qs.map Part.unplaced = ps.map Part.unplaced → ts' ++ vs' = ts.map (Token.moved m) ++ vs →
        ts' = ts.map (Token.moved m) ∧ List.Forall₂ (Part.MovesTo m) ps qs
  | _, _, .nil, qs, _, _, _, h', hshape, _ => by
    obtain rfl := List.map_eq_nil_iff.1 hshape
    cases h'
    exact ⟨rfl, .nil⟩
  | _, _, .token (r := r) fits tail, qs, _, _, _, h', hshape, hts => by
    obtain ⟨q, qs, rfl, hq, hqs⟩ := List.map_eq_cons_iff.1 hshape
    obtain ⟨r', rfl, hr⟩ := Part.of_unplaced_token hq
    obtain ⟨t', us', rfl, hfits, htail⟩ := h'.of_token
    obtain ⟨rfl, hrest⟩ := List.cons.inj hts
    obtain ⟨rfl, hmoves⟩ := tail.movesTo hm htail hqs hrest
    exact ⟨rfl, .cons (Part.movesTo_of_fits fits hfits hr) hmoves⟩
  | _, _, .operator (p := p) fits tail, qs, _, _, _, h', hshape, hts => by
    obtain ⟨q, qs, rfl, hq, hqs⟩ := List.map_eq_cons_iff.1 hshape
    obtain ⟨pos', rfl⟩ := Part.of_unplaced_operator hq
    obtain ⟨t', us', rfl, hfits, rfl, htail⟩ := h'.of_operator
    obtain ⟨rfl, hrest⟩ := List.cons.inj hts
    obtain ⟨rfl, hmoves⟩ := tail.movesTo hm htail hqs hrest
    exact ⟨rfl, .cons (.operator p _) hmoves⟩
  | _, _, .unjoined tail, qs, _, _, _, h', hshape, hts => by
    obtain ⟨q, qs, rfl, hq, hqs⟩ := List.map_eq_cons_iff.1 hshape
    obtain ⟨pos', rfl⟩ := Part.of_unplaced_unjoined hq
    obtain ⟨rfl, htail⟩ := h'.of_unjoined
    obtain ⟨rfl, hmoves⟩ := tail.movesTo hm htail hqs hts
    exact ⟨rfl, .cons .unjoined hmoves⟩
  | _, _, .node head tail, qs, _, _, _, h', hshape, hts => by
    obtain ⟨q, qs, rfl, hq, hqs⟩ := List.map_eq_cons_iff.1 hshape
    obtain ⟨n', rfl, hn⟩ := Part.of_unplaced_node hq
    obtain ⟨us', ws', rfl, hhead, htail⟩ := h'.of_node
    rw [List.map_append, List.append_assoc, List.append_assoc] at hts
    obtain ⟨rfl, hnode⟩ := head.movesTo hm hhead hn hts
    obtain ⟨rfl, hmoves⟩ := tail.movesTo hm htail hqs (List.append_cancel_left hts)
    exact ⟨List.map_append.symm, .cons (.node hnode) hmoves⟩

end

/-- Trees of one shape on tokens that differ in their places only. -/
theorem Expression.eq_moved (hm : m.Keeps) {e e' : Expression} {ts : List Token}
    (h : (Node.expression e).Stands ts)
    (h' : (Node.expression e').Stands (ts.map (Token.moved m)))
    (hshape : e'.unplaced = e.unplaced) : e' = e.moved m := by
  have hts : ts.map (Token.moved m) ++ [] = ts.map (Token.moved m) ++ [] := rfl
  obtain ⟨-, _, he⟩ := h.movesTo hm h' (congrArg Node.expression hshape) hts
  exact Node.expression.inj he

end Stands

end ListQuery.Filter
