/-
Heights of trees. Each expression and each comparable is a level of its own; the height of a tree is
the greatest number of levels on a path from its root down to a leaf. Main statement:
`Node.isGreatest_height`.
-/
import Mathlib.Order.Bounds.Basic
import ListQuery.Proofs.Tree.Parts

namespace ListQuery.Filter

/-- The greatest height in a list, zero if the list is empty. -/
def tallest {α : Type} (height : α → Nat) : List α → Nat
  | [] => 0
  | a :: as => max (height a) (tallest height as)

section Tallest

variable {α β : Type} {height : α → Nat}

@[simp] theorem tallest_nil : tallest height [] = 0 := rfl

@[simp] theorem tallest_cons (a : α) (as : List α) :
    tallest height (a :: as) = max (height a) (tallest height as) := rfl

@[simp] theorem tallest_zero (as : List α) : tallest (fun _ => 0) as = 0 := by
  induction as with
  | nil => rfl
  | cons a as ih => rw [tallest_cons, ih, max_self]

@[simp] theorem tallest_append (as bs : List α) :
    tallest height (as ++ bs) = max (tallest height as) (tallest height bs) := by
  induction as with
  | nil => simp
  | cons a as ih => rw [List.cons_append, tallest_cons, ih, tallest_cons, max_assoc]

@[simp] theorem tallest_map (f : β → α) (bs : List β) :
    tallest height (bs.map f) = tallest (fun b => height (f b)) bs := by
  induction bs with
  | nil => rfl
  | cons b bs ih => rw [List.map_cons, tallest_cons, ih, tallest_cons]

theorem le_tallest {a : α} {as : List α} (h : a ∈ as) : height a ≤ tallest height as := by
  induction as with
  | nil => cases h
  | cons b as ih =>
    rcases List.mem_cons.1 h with rfl | h
    · exact Nat.le_max_left _ _
    · exact (ih h).trans (Nat.le_max_right _ _)

theorem exists_tallest {as : List α} (h : as ≠ []) : ∃ a ∈ as, height a = tallest height as := by
  induction as with
  | nil => exact absurd rfl h
  | cons a as ih =>
    by_cases hle : tallest height as ≤ height a
    · exact ⟨a, List.mem_cons_self, (max_eq_left hle).symm⟩
    · have has : as ≠ [] := by
        rintro rfl
        exact hle (Nat.zero_le _)
      obtain ⟨b, hb, heq⟩ := ih has
      exact ⟨b, List.mem_cons_of_mem a hb, heq.trans (max_eq_right (by omega)).symm⟩

/-- A function that takes the greater one along a list gives the greatest. -/
theorem eq_tallest_of_cons {f : List α → Nat} (hnil : f [] = 0)
    (hcons : ∀ a as, f (a :: as) = max (height a) (f as)) : ∀ as, f as = tallest height as
  | [] => hnil
  | a :: as => by rw [hcons, eq_tallest_of_cons hnil hcons as, tallest_cons]

end Tallest

mutual

/-- The greatest number of expressions and comparables on a path from the root to a leaf. -/
def Expression.height : Expression → Nat
  | ⟨_, sequences⟩ => sequencesHeight sequences + 1

def sequencesHeight : List Sequence → Nat
  | [] => 0
  | s :: ss => max s.height (sequencesHeight ss)

def Sequence.height : Sequence → Nat
  | ⟨_, factors⟩ => factorsHeight factors

def factorsHeight : List Factor → Nat
  | [] => 0
  | f :: fs => max f.height (factorsHeight fs)

def Factor.height : Factor → Nat
  | ⟨_, terms⟩ => termsHeight terms

def termsHeight : List Term → Nat
  | [] => 0
  | t :: ts => max t.height (termsHeight ts)

def Term.height : Term → Nat
  | ⟨_, _, simple, _⟩ => simple.height

def Simple.height : Simple → Nat
  | .restriction r => r.height
  | .composite c => c.height

def Restriction.height : Restriction → Nat
  | ⟨_, comparable, none⟩ => comparable.height
  | ⟨_, comparable, some comparison⟩ => max comparable.height comparison.height

def Comparison.height : Comparison → Nat
  | ⟨_, _, arg⟩ => arg.height

def Composite.height : Composite → Nat
  | ⟨_, expression⟩ => expression.height

def Comparable.height : Comparable → Nat
  | .member _ => 1
  | .call c => c.height + 1
  | .struct s => s.height + 1
  | .array a => a.height + 1

def Arg.height : Arg → Nat
  | .composite c => c.height
  | .comparable c => c.height

def argsHeight : List Arg → Nat
  | [] => 0
  | a :: as => max a.height (argsHeight as)

/-- The height of what is inside of a call. -/
def Call.height : Call → Nat
  | ⟨_, _, args⟩ => argsHeight args

/-- The height of what is inside of a struct literal. -/
def StructLiteral.height : StructLiteral → Nat
  | ⟨_, _, entries⟩ => entriesHeight entries

def entriesHeight : List StructEntry → Nat
  | [] => 0
  | e :: es => max e.height (entriesHeight es)

def StructEntry.height : StructEntry → Nat
  | ⟨_, value⟩ => value.height

/-- The height of what is inside of an array literal. -/
def ArrayLiteral.height : ArrayLiteral → Nat
  | ⟨_, elements⟩ => elementsHeight elements

def elementsHeight : List Comparable → Nat
  | [] => 0
  | c :: cs => max c.height (elementsHeight cs)

end

/-- The height of the tree of a filter; a filter without a tree has none. -/
def filterHeight (root : Option Expression) : Nat := root.elim 0 Expression.height

theorem Expression.height_pos (e : Expression) : 0 < e.height := by
  cases e
  exact Nat.succ_pos _

theorem Comparable.height_pos (c : Comparable) : 0 < c.height := by
  cases c <;> exact Nat.succ_pos _

theorem sequencesHeight_eq (xs : List Sequence) : sequencesHeight xs = tallest Sequence.height xs :=
  eq_tallest_of_cons rfl (fun _ _ => rfl) xs

theorem factorsHeight_eq (xs : List Factor) : factorsHeight xs = tallest Factor.height xs :=
  eq_tallest_of_cons rfl (fun _ _ => rfl) xs

theorem termsHeight_eq (xs : List Term) : termsHeight xs = tallest Term.height xs :=
  eq_tallest_of_cons rfl (fun _ _ => rfl) xs

theorem argsHeight_eq (xs : List Arg) : argsHeight xs = tallest Arg.height xs :=
  eq_tallest_of_cons rfl (fun _ _ => rfl) xs

theorem entriesHeight_eq (xs : List StructEntry) :
    entriesHeight xs = tallest StructEntry.height xs :=
  eq_tallest_of_cons rfl (fun _ _ => rfl) xs

theorem elementsHeight_eq (xs : List Comparable) :
    elementsHeight xs = tallest Comparable.height xs :=
  eq_tallest_of_cons rfl (fun _ _ => rfl) xs

/-! ## Heights of nodes -/

namespace Node

def height : Node → Nat
  | expression e => e.height
  | sequence s => s.height
  | factor f => f.height
  | term t => t.height
  | restriction r => r.height
  | composite c => c.height
  | comparable c => c.height

/-- Expressions and comparables are a level each. -/
def level : Node → Nat
  | expression _ | comparable _ => 1
  | _ => 0

@[simp] theorem height_expression (e : Expression) : (expression e).height = e.height := rfl
@[simp] theorem height_sequence (s : Sequence) : (sequence s).height = s.height := rfl
@[simp] theorem height_factor (f : Factor) : (factor f).height = f.height := rfl
@[simp] theorem height_term (t : Term) : (term t).height = t.height := rfl
@[simp] theorem height_restriction (r : Restriction) : (restriction r).height = r.height := rfl
@[simp] theorem height_composite (c : Composite) : (composite c).height = c.height := rfl
@[simp] theorem height_comparable (c : Comparable) : (comparable c).height = c.height := rfl
@[simp] theorem height_simple (x : Simple) : x.node.height = x.height := by cases x <;> rfl
@[simp] theorem height_arg (a : Arg) : a.node.height = a.height := by cases a <;> rfl

end Node

namespace Part

/-- The height of the node that a part is, if it is one. -/
def height : Part → Nat
  | node n => n.height
  | _ => 0

@[simp] theorem height_token (r : Role) : (token r).height = 0 := rfl
@[simp] theorem height_operator (p : Piece) (pos : Option Position) :
    (operator p pos).height = 0 := rfl
@[simp] theorem height_unjoined (pos : Option Position) : (unjoined pos).height = 0 := rfl
@[simp] theorem height_node (n : Node) : (node n).height = n.height := rfl

theorem tallest_intercalate (r : Role) : ∀ pss : List (List Part),
    tallest height ([token r].intercalate pss) = tallest (tallest height) pss
  | [] => rfl
  | [ps] => by simp
  | ps :: qs :: pss => by
    have ih := tallest_intercalate r (qs :: pss)
    rw [List.intercalate_cons_cons, tallest_append, tallest_append, ih]
    simp

theorem tallest_ofTerms : ∀ ts : List Term, tallest height (ofTerms ts) = tallest Term.height ts
  | [] => rfl
  | [_] => by simp [ofTerms]
  | t :: u :: ts => by
    rw [ofTerms_cons (List.cons_ne_nil u ts), tallest_cons, tallest_cons,
      tallest_ofTerms (u :: ts)]
    simp

theorem tallest_ofEntry (e : StructEntry) : tallest height (ofEntry e) = e.height := by
  obtain ⟨name, value⟩ := e
  simp [ofEntry, StructEntry.height]

theorem tallest_items (pss : List (List Part)) (close : Piece) :
    tallest height (items pss close) = tallest (tallest height) pss := by
  simp [items, tallest_intercalate]

theorem tallest_node? (ps : List Part) :
    tallest Node.height (ps.filterMap node?) = tallest height ps := by
  induction ps with
  | nil => rfl
  | cons p ps ih =>
    cases p with
    | node n => simp [node?, ih]
    | token | operator | unjoined =>
      rw [List.filterMap_cons_none rfl, ih, tallest_cons]
      exact (Nat.zero_max _).symm

end Part

namespace Node

open Filter.Part in
/-- A node is as high as the highest node below it, and its own level more. -/
theorem height_eq (n : Node) : n.height = tallest height n.children + n.level := by
  rw [children, tallest_node?]
  cases n with
  | expression e =>
    obtain ⟨span, ss⟩ := e
    simp [level, parts, Expression.height, sequencesHeight_eq, tallest_intercalate]
  | sequence s =>
    obtain ⟨span, fs⟩ := s
    simp [level, parts, Sequence.height, factorsHeight_eq]
  | factor f =>
    obtain ⟨span, ts⟩ := f
    simp [level, parts, Factor.height, termsHeight_eq, tallest_ofTerms]
  | term t =>
    obtain ⟨span, u, x, orPos⟩ := t
    simp [level, parts, Term.height, ofUnary]
  | restriction r =>
    obtain ⟨span, c, comparison⟩ := r
    cases comparison with
    | none => simp [level, parts, Restriction.height]
    | some x =>
      obtain ⟨comparator, pos, a⟩ := x
      simp [level, parts, Restriction.height, Comparison.height, ofComparison]
  | composite c =>
    obtain ⟨span, e⟩ := c
    simp [level, parts, Composite.height]
  | comparable c =>
    cases c with
    | member m => simp [level, parts, Comparable.height, ofPath]
    | call c =>
      obtain ⟨span, name, args⟩ := c
      simp [level, parts, Comparable.height, Call.height, argsHeight_eq, ofPath,
        tallest_items]
    | struct s =>
      obtain ⟨span, name, entries⟩ := s
      simp [level, parts, Comparable.height, StructLiteral.height, entriesHeight_eq, ofPath,
        tallest_items, tallest_ofEntry]
    | array a =>
      obtain ⟨span, elements⟩ := a
      simp [level, parts, Comparable.height, ArrayLiteral.height, elementsHeight_eq,
        tallest_items]

/-- A path from a node down to a leaf goes through so many levels. -/
inductive Descends : Node → Nat → Prop where
  | leaf {n : Node} (bottom : n.children = []) : Descends n n.level
  | step {n child : Node} {levels : Nat} (below : child ∈ n.children)
    (path : Descends child levels) : Descends n (levels + n.level)

theorem Descends.le_height {n : Node} {levels : Nat} (h : n.Descends levels) :
    levels ≤ n.height := by
  induction h with
  | leaf => rw [height_eq]; exact Nat.le_add_left _ _
  | step below _ ih =>
    rw [height_eq]
    exact Nat.add_le_add_right (ih.trans (le_tallest below)) _

/-- A node below another one has fewer nodes. -/
theorem length_nodes_lt {n child : Node} (h : child ∈ n.children) :
    child.nodes.length < n.nodes.length := by
  obtain ⟨p, hp, hchild⟩ := List.mem_filterMap.1 h
  have hnodes : p.nodes = child.nodes := by
    cases p with
    | node m => rw [Option.some.inj hchild, Part.nodes_node]
    | token | operator | unjoined => cases hchild
  obtain ⟨before, after, hparts⟩ := List.append_of_mem hp
  rw [n.nodes_eq, hparts, List.flatMap_append, List.flatMap_cons, hnodes]
  simp only [List.length_cons, List.length_append]
  omega

/-- By induction on the number of nodes. -/
theorem descends_height (n : Node) : n.Descends n.height := by
  by_cases hbottom : n.children = []
  · rw [height_eq, hbottom, tallest_nil, Nat.zero_add]
    exact .leaf hbottom
  · obtain ⟨child, hchild, hheight⟩ := @exists_tallest _ height _ hbottom
    have hless := length_nodes_lt hchild
    rw [height_eq, ← hheight]
    exact .step hchild child.descends_height
termination_by n.nodes.length

/-- The height of a node is the greatest number of levels on a path from it down to a leaf. -/
theorem isGreatest_height (n : Node) : IsGreatest {levels | n.Descends levels} n.height :=
  ⟨n.descends_height, fun _ h => h.le_height⟩

end Node

/-- The tree with all its sequences so many times more. -/
def Expression.repeated (copies : Nat) (e : Expression) : Expression :=
  ⟨e.span, e.sequences ++ (List.replicate copies e.sequences).flatten⟩

/-- More of the same sequences make no tree higher. -/
theorem Expression.height_repeated (copies : Nat) (e : Expression) :
    (e.repeated copies).height = e.height := by
  obtain ⟨span, sequences⟩ := e
  have hcopies : tallest Sequence.height (List.replicate copies sequences).flatten ≤
      tallest Sequence.height sequences := by
    induction copies with
    | zero => exact Nat.zero_le _
    | succ copies ih =>
      rw [List.replicate_succ, List.flatten_cons, tallest_append]
      exact Nat.max_le.2 ⟨le_rfl, ih⟩
  simp only [repeated, height, sequencesHeight_eq, tallest_append, Nat.max_eq_left hcopies]

end ListQuery.Filter
