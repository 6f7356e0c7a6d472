/-
The logic of a filter is that of its tree. Both are evaluated from the truth of restrictions: a tree
as the grammar has it, an expression by its conjunctions, disjunctions and negations, down to the
atoms that restrictions resolve to. And nothing is joined that stands alone: a conjunction or
disjunction, on any depth, has two operands or more, since no node of a tree is empty. Main
statement: `Resolver.resolve_logic`.
-/
import ListQuery.Proofs.Parse.Spans
import ListQuery.Proofs.Resolve.Levels
import ListQuery.Proofs.Resolve.Mirror

namespace ListQuery.Filter

open Resolve

mutual

/-- The truth of a tree from the truth of its restrictions. -/
def Expression.holds (a : Restriction → Bool) : Expression → Bool
  | ⟨_, sequences⟩ => allSequencesHold a sequences

def allSequencesHold (a : Restriction → Bool) : List Sequence → Bool
  | [] => true
  | s :: ss => s.holds a && allSequencesHold a ss

def Sequence.holds (a : Restriction → Bool) : Sequence → Bool
  | ⟨_, factors⟩ => allFactorsHold a factors

def allFactorsHold (a : Restriction → Bool) : List Factor → Bool
  | [] => true
  | f :: fs => f.holds a && allFactorsHold a fs

def Factor.holds (a : Restriction → Bool) : Factor → Bool
  | ⟨_, terms⟩ => anyTermHolds a terms

def anyTermHolds (a : Restriction → Bool) : List Term → Bool
  | [] => false
  | t :: ts => t.holds a || anyTermHolds a ts

def Term.holds (a : Restriction → Bool) : Term → Bool
  | ⟨_, none, simple, _⟩ => simple.holds a
  | ⟨_, some .not, simple, _⟩ => !simple.holds a
  | ⟨_, some .minus, simple, _⟩ => !simple.holds a

def Simple.holds (a : Restriction → Bool) : Simple → Bool
  | .restriction x => a x
  | .composite c => c.holds a

def Composite.holds (a : Restriction → Bool) : Composite → Bool
  | ⟨_, expression⟩ => expression.holds a

end

mutual

/-- The restrictions that the truth of a tree depends on, in the order of the text. -/
def Expression.restrictions : Expression → List Restriction
  | ⟨_, sequences⟩ => sequenceRestrictions sequences

def sequenceRestrictions : List Sequence → List Restriction
  | [] => []
  | s :: ss => s.restrictions ++ sequenceRestrictions ss

def Sequence.restrictions : Sequence → List Restriction
  | ⟨_, factors⟩ => factorRestrictions factors

def factorRestrictions : List Factor → List Restriction
  | [] => []
  | f :: fs => f.restrictions ++ factorRestrictions fs

def Factor.restrictions : Factor → List Restriction
  | ⟨_, terms⟩ => termRestrictions terms

def termRestrictions : List Term → List Restriction
  | [] => []
  | t :: ts => t.restrictions ++ termRestrictions ts

def Term.restrictions : Term → List Restriction
  | ⟨_, _, simple, _⟩ => simple.restrictions

def Simple.restrictions : Simple → List Restriction
  | .restriction x => [x]
  | .composite c => c.restrictions

def Composite.restrictions : Composite → List Restriction
  | ⟨_, expression⟩ => expression.restrictions

end

theorem allSequencesHold_eq (a : Restriction → Bool) (ss : List Sequence) :
    allSequencesHold a ss = ss.all (Sequence.holds a) := by
  induction ss with
  | nil => rfl
  | cons s ss ih => rw [allSequencesHold, ih, List.all_cons]

theorem allFactorsHold_eq (a : Restriction → Bool) (fs : List Factor) :
    allFactorsHold a fs = fs.all (Factor.holds a) := by
  induction fs with
  | nil => rfl
  | cons f fs ih => rw [allFactorsHold, ih, List.all_cons]

theorem anyTermHolds_eq (a : Restriction → Bool) (ts : List Term) :
    anyTermHolds a ts = ts.any (Term.holds a) := by
  induction ts with
  | nil => rfl
  | cons t ts ih => rw [anyTermHolds, ih, List.any_cons]

theorem sequenceRestrictions_eq (ss : List Sequence) :
    sequenceRestrictions ss = ss.flatMap Sequence.restrictions :=
  eq_flatMap_of_cons rfl (fun _ _ => rfl) ss

theorem factorRestrictions_eq (fs : List Factor) :
    factorRestrictions fs = fs.flatMap Factor.restrictions :=
  eq_flatMap_of_cons rfl (fun _ _ => rfl) fs

theorem termRestrictions_eq (ts : List Term) :
    termRestrictions ts = ts.flatMap Term.restrictions :=
  eq_flatMap_of_cons rfl (fun _ _ => rfl) ts

/-! ## Truth of expressions -/

namespace Expr

/-- Whether an expression stands for a restriction. -/
def isAtom : Expr → Bool
  | .compare .. | .field _ | .value _ | .call .. => true
  | _ => false

end Expr

mutual

/-- The truth of an expression from the truth of its atoms. -/
def Expr.holds (v : Expr → Bool) : Expr → Bool
  | .and items => allHold v items
  | .or items => anyHolds v items
  | .not item => !item.holds v
  | e => v e

def allHold (v : Expr → Bool) : List Expr → Bool
  | [] => true
  | e :: es => e.holds v && allHold v es

def anyHolds (v : Expr → Bool) : List Expr → Bool
  | [] => false
  | e :: es => e.holds v || anyHolds v es

end

mutual

/-- What the truth of an expression depends on, from left to right. -/
def Expr.atoms : Expr → List Expr
  | .and items => itemAtoms items
  | .or items => itemAtoms items
  | .not item => item.atoms
  | e => [e]

def itemAtoms : List Expr → List Expr
  | [] => []
  | e :: es => e.atoms ++ itemAtoms es

end

mutual

/-- The operands of each conjunction and each disjunction of an expression, at any depth. -/
def Expr.junctions : Expr → List (List Expr)
  | .compare left _ right => left.junctions ++ right.junctions
  | .and items => items :: itemJunctions items
  | .or items => items :: itemJunctions items
  | .array items => itemJunctions items
  | .not item => item.junctions
  | .field _ => []
  | .call _ _ args _ => itemJunctions args
  | .value v => v.junctions
  | .map entries => entryJunctions entries

def Value.junctions : Value → List (List Expr)
  | .message _ fields => fieldJunctions fields
  | _ => []

def itemJunctions : List Expr → List (List Expr)
  | [] => []
  | e :: es => e.junctions ++ itemJunctions es

def entryJunctions : List (Expr × Expr) → List (List Expr)
  | [] => []
  | (k, v) :: es => k.junctions ++ v.junctions ++ entryJunctions es

def fieldJunctions : List (String × Expr) → List (List Expr)
  | [] => []
  | (_, v) :: fs => v.junctions ++ fieldJunctions fs

end

/-- Every conjunction and every disjunction joins two operands or more. -/
def Expr.Forked (e : Expr) : Prop := ∀ items ∈ e.junctions, 2 ≤ items.length

theorem allHold_eq (v : Expr → Bool) (es : List Expr) : allHold v es = es.all (Expr.holds v) := by
  induction es with
  | nil => rfl
  | cons e es ih => rw [allHold, ih, List.all_cons]

theorem anyHolds_eq (v : Expr → Bool) (es : List Expr) : anyHolds v es = es.any (Expr.holds v) := by
  induction es with
  | nil => rfl
  | cons e es ih => rw [anyHolds, ih, List.any_cons]

theorem itemAtoms_eq (es : List Expr) : itemAtoms es = es.flatMap Expr.atoms :=
  eq_flatMap_of_cons rfl (fun _ _ => rfl) es

theorem itemJunctions_eq (es : List Expr) : itemJunctions es = es.flatMap Expr.junctions :=
  eq_flatMap_of_cons rfl (fun _ _ => rfl) es

theorem fieldJunctions_eq (fs : List (String × Expr)) :
    fieldJunctions fs = fs.flatMap fun f => f.2.junctions :=
  eq_flatMap_of_cons rfl (fun _ _ => rfl) fs

theorem entryJunctions_eq (es : List (Expr × Expr)) :
    entryJunctions es = es.flatMap fun e => e.1.junctions ++ e.2.junctions :=
  eq_flatMap_of_cons rfl (fun _ _ => rfl) es

namespace Expr

theorem holds_conjunction (v : Expr → Bool) (es : List Expr) :
    (conjunction es).holds v = es.all (holds v) := by
  rw [← allHold_eq]
  exact apply_conjunction (fun e => Bool.and_true (e.holds v)) (fun _ => rfl) es

theorem holds_disjunction (v : Expr → Bool) (es : List Expr) :
    (disjunction es).holds v = es.any (holds v) := by
  rw [← anyHolds_eq]
  exact apply_disjunction (fun e => Bool.or_false (e.holds v)) (fun _ => rfl) es

theorem atoms_conjunction (es : List Expr) : (conjunction es).atoms = es.flatMap atoms := by
  rw [← itemAtoms_eq]
  exact apply_conjunction (fun e => List.append_nil e.atoms) (fun _ => rfl) es

theorem atoms_disjunction (es : List Expr) : (disjunction es).atoms = es.flatMap atoms := by
  rw [← itemAtoms_eq]
  exact apply_disjunction (fun e => List.append_nil e.atoms) (fun _ => rfl) es

theorem holds_of_isAtom {e : Expr} (h : e.isAtom = true) (v : Expr → Bool) : e.holds v = v e := by
  cases e with
  | compare | field | value | call => rfl
  | _ => cases h

theorem atoms_of_isAtom {e : Expr} (h : e.isAtom = true) : e.atoms = [e] := by
  cases e with
  | compare | field | value | call => rfl
  | _ => cases h

theorem forked_items {es : List Expr} (h : ∀ e ∈ es, e.Forked) :
    ∀ items ∈ itemJunctions es, 2 ≤ items.length := by
  intro items hitems
  rw [itemJunctions_eq, List.mem_flatMap] at hitems
  obtain ⟨e, he, hitems⟩ := hitems
  exact h e he items hitems

/-- One operand alone is itself, so what is joined are two operands or more. -/
theorem Forked.conjunction {es : List Expr} (hne : es ≠ []) (h : ∀ e ∈ es, e.Forked) :
    (conjunction es).Forked := by
  match es with
  | [] => exact absurd rfl hne
  | [e] => exact h e List.mem_cons_self
  | e :: e' :: es => exact List.forall_mem_cons.2 ⟨by simp, forked_items h⟩

theorem Forked.disjunction {es : List Expr} (hne : es ≠ []) (h : ∀ e ∈ es, e.Forked) :
    (disjunction es).Forked := by
  match es with
  | [] => exact absurd rfl hne
  | [e] => exact h e List.mem_cons_self
  | e :: e' :: es => exact List.forall_mem_cons.2 ⟨by simp, forked_items h⟩

end Expr

/-- A node of the three kinds that join others joins at least one. -/
def Node.Whole : Node → Prop
  | .expression e => e.sequences ≠ []
  | .sequence s => s.factors ≠ []
  | .factor f => f.terms ≠ []
  | _ => True

/-- All nodes are whole. -/
def AllWhole (ns : List Node) : Prop := ∀ n ∈ ns, n.Whole

theorem AllWhole.of_flatMap {α : Type} {xs : List α} {nodes : α → List Node}
    (h : AllWhole (xs.flatMap nodes)) {x : α} (hx : x ∈ xs) : AllWhole (nodes x) :=
  fun n hn => h n (List.mem_flatMap.2 ⟨x, hx, hn⟩)

theorem AllWhole.of_append {ms ns : List Node} (h : AllWhole (ms ++ ns)) :
    AllWhole ms ∧ AllWhole ns :=
  List.forall_mem_append.1 h

/-- A node stands on tokens, of which there are none for nothing. -/
theorem Node.Stands.whole {n : Node} {ts : List Token} (h : n.Stands ts) : n.Whole := by
  have hparts : n.parts ≠ [] := by
    intro hnil
    have hstand := h.parts_stand
    rw [hnil] at hstand
    obtain ⟨first, -, hfirst, -⟩ := h.covers
    cases hstand
    cases hfirst
  cases n with
  | expression e =>
    intro hnil
    exact hparts (by simp [Node.parts, hnil])
  | sequence s =>
    intro hnil
    exact hparts (by simp [Node.parts, hnil])
  | factor f =>
    intro hnil
    exact hparts (by simp [Node.parts, Part.ofTerms, hnil])
  | _ => trivial

theorem allWhole_of_parse {o : ParserOptions} {input : String} {e : Expression}
    (h : parse o input = .ok (some e)) : AllWhole e.nodes := by
  intro n hn
  obtain ⟨ts, -, hts⟩ := (parse_stand h).of_single.of_mem hn
  exact hts.whole

/-! ## Expressions put together -/

theorem forall_mem_of_forall₂ {α β : Type} {R : α → β → Prop} {P : β → Prop} {xs : List α}
    {ys : List β} (h : List.Forall₂ R xs ys) (hP : ∀ x ∈ xs, ∀ y, R x y → P y) :
    ∀ y ∈ ys, P y := by
  induction h with
  | nil => simp
  | cons hr _ ih =>
    refine List.forall_mem_cons.2 ⟨hP _ List.mem_cons_self _ hr, ih fun x hx => ?_⟩
    exact hP x (List.mem_cons_of_mem _ hx)

theorem ne_nil_of_forall₂ {α β : Type} {R : α → β → Prop} {xs : List α} {ys : List β}
    (h : List.Forall₂ R xs ys) (hxs : xs ≠ []) : ys ≠ [] := by
  cases h with
  | nil => exact absurd rfl hxs
  | cons => exact List.cons_ne_nil _ _

theorem all_eq_of_forall₂ {α β : Type} {p : α → Bool} {q : β → Bool} {xs : List α} {ys : List β}
    (h : List.Forall₂ (fun x y => q y = p x) xs ys) : ys.all q = xs.all p := by
  induction h with
  | nil => rfl
  | cons hq _ ih => rw [List.all_cons, List.all_cons, hq, ih]

theorem any_eq_of_forall₂ {α β : Type} {p : α → Bool} {q : β → Bool} {xs : List α} {ys : List β}
    (h : List.Forall₂ (fun x y => q y = p x) xs ys) : ys.any q = xs.any p := by
  induction h with
  | nil => rfl
  | cons hq _ ih => rw [List.any_cons, List.any_cons, hq, ih]

section Assembled

variable {S : Simple → Expr → Prop}

/-! Operands that are forked are joined to what is forked, since there are some. -/

section Forked

variable (hS : ∀ x e, S x e → AllWhole x.nodes → e.Forked)

include hS

theorem Term.Assembled.forked {t : Term} {e : Expr} (h : t.Assembled S e)
    (ht : AllWhole t.nodes) : e.Forked := by
  obtain ⟨span, unary, simple, orPos⟩ := t
  obtain ⟨x, hx, rfl⟩ := h
  have hforked := hS _ x hx fun n hn => ht n (List.mem_cons_of_mem _ hn)
  split
  · exact hforked
  · exact hforked

theorem Factor.Assembled.forked {f : Factor} {e : Expr} (h : f.Assembled S e)
    (hf : AllWhole f.nodes) : e.Forked := by
  obtain ⟨span, terms⟩ := f
  obtain ⟨es, hes, rfl⟩ := h
  rw [Factor.nodes, termNodes_eq] at hf
  obtain ⟨hne, hterms⟩ := List.forall_mem_cons.1 hf
  refine Expr.Forked.disjunction (ne_nil_of_forall₂ hes hne) ?_
  exact forall_mem_of_forall₂ hes fun t ht e he => he.forked hS (AllWhole.of_flatMap hterms ht)

theorem Sequence.Assembled.forked {s : Sequence} {e : Expr} (h : s.Assembled S e)
    (hs : AllWhole s.nodes) : e.Forked := by
  obtain ⟨span, factors⟩ := s
  obtain ⟨es, hes, rfl⟩ := h
  rw [Sequence.nodes, factorNodes_eq] at hs
  obtain ⟨hne, hfactors⟩ := List.forall_mem_cons.1 hs
  refine Expr.Forked.conjunction (ne_nil_of_forall₂ hes hne) ?_
  exact forall_mem_of_forall₂ hes fun f hf e he => he.forked hS (AllWhole.of_flatMap hfactors hf)

theorem Expression.Assembled.forked {x : Expression} {e : Expr} (h : x.Assembled S e)
    (hx : AllWhole x.nodes) : e.Forked := by
  obtain ⟨span, sequences⟩ := x
  obtain ⟨es, hes, rfl⟩ := h
  rw [Expression.nodes, sequenceNodes_eq] at hx
  obtain ⟨hne, hsequences⟩ := List.forall_mem_cons.1 hx
  refine Expr.Forked.conjunction (ne_nil_of_forall₂ hes hne) ?_
  exact forall_mem_of_forall₂ hes fun s hs e he => he.forked hS (AllWhole.of_flatMap hsequences hs)

end Forked

/-! What is put together has the truth of the tree, if its operands have theirs. -/

section Holds

variable {v : Expr → Bool} {a : Restriction → Bool} (hS : ∀ x e, S x e → e.holds v = x.holds a)

include hS

theorem Term.Assembled.holds {t : Term} {e : Expr} (h : t.Assembled S e) :
    e.holds v = t.holds a := by
  obtain ⟨span, unary, simple, orPos⟩ := t
  obtain ⟨x, hx, rfl⟩ := h
  have hx := hS _ x hx
  cases unary with
  | none => exact hx
  | some op => cases op <;> exact congrArg Bool.not hx

theorem Factor.Assembled.holds {f : Factor} {e : Expr} (h : f.Assembled S e) :
    e.holds v = f.holds a := by
  obtain ⟨span, terms⟩ := f
  obtain ⟨es, hes, rfl⟩ := h
  rw [Expr.holds_disjunction, Factor.holds, anyTermHolds_eq]
  exact any_eq_of_forall₂ (hes.imp fun t e he => he.holds hS)

theorem Sequence.Assembled.holds {s : Sequence} {e : Expr} (h : s.Assembled S e) :
    e.holds v = s.holds a := by
  obtain ⟨span, factors⟩ := s
  obtain ⟨es, hes, rfl⟩ := h
  rw [Expr.holds_conjunction, Sequence.holds, allFactorsHold_eq]
  exact all_eq_of_forall₂ (hes.imp fun f e he => he.holds hS)

theorem Expression.Assembled.holds {x : Expression} {e : Expr} (h : x.Assembled S e) :
    e.holds v = x.holds a := by
  obtain ⟨span, sequences⟩ := x
  obtain ⟨es, hes, rfl⟩ := h
  rw [Expr.holds_conjunction, Expression.holds, allSequencesHold_eq]
  exact all_eq_of_forall₂ (hes.imp fun s e he => he.holds hS)

end Holds

/-! And it has the atoms of its operands, one for each restriction. -/

section Atoms

variable {R : Restriction → Expr → Prop}
  (hS : ∀ x e, S x e → List.Forall₂ R x.restrictions e.atoms)

include hS

theorem Term.Assembled.atoms {t : Term} {e : Expr} (h : t.Assembled S e) :
    List.Forall₂ R t.restrictions e.atoms := by
  obtain ⟨span, unary, simple, orPos⟩ := t
  obtain ⟨x, hx, rfl⟩ := h
  have hx := hS _ x hx
  split
  · exact hx
  · exact hx

theorem Factor.Assembled.atoms {f : Factor} {e : Expr} (h : f.Assembled S e) :
    List.Forall₂ R f.restrictions e.atoms := by
  obtain ⟨span, terms⟩ := f
  obtain ⟨es, hes, rfl⟩ := h
  rw [Expr.atoms_disjunction, Factor.restrictions, termRestrictions_eq]
  exact List.rel_flatMap hes fun x e he => he.atoms hS

theorem Sequence.Assembled.atoms {s : Sequence} {e : Expr} (h : s.Assembled S e) :
    List.Forall₂ R s.restrictions e.atoms := by
  obtain ⟨span, factors⟩ := s
  obtain ⟨es, hes, rfl⟩ := h
  rw [Expr.atoms_conjunction, Sequence.restrictions, factorRestrictions_eq]
  exact List.rel_flatMap hes fun x e he => he.atoms hS

theorem Expression.Assembled.atoms {x : Expression} {e : Expr} (h : x.Assembled S e) :
    List.Forall₂ R x.restrictions e.atoms := by
  obtain ⟨span, sequences⟩ := x
  obtain ⟨es, hes, rfl⟩ := h
  rw [Expr.atoms_conjunction, Expression.restrictions, sequenceRestrictions_eq]
  exact List.rel_flatMap hes fun x e he => he.atoms hS

end Atoms

end Assembled

theorem forked_of_scalar {v : Value} (h : v.isScalar = true) : (Expr.value v).Forked := by
  intro items hitems
  cases v with
  | message => cases h
  | _ => cases hitems

theorem Arg.forked_of_mirrored {arg : Arg} {e : Expr}
    (h : arg.Mirrored (fun c e => AllWhole c.nodes → e.Forked)
      (fun x e => AllWhole x.nodes → e.Forked) e) (harg : AllWhole arg.nodes) : e.Forked := by
  cases arg with
  | composite c =>
    obtain ⟨span, x⟩ := c
    exact h (List.forall_mem_cons.1 harg).2
  | comparable c => exact h harg

theorem AllWhole.entry {s : StructLiteral} (h : AllWhole (Comparable.struct s).nodes)
    {entry : StructEntry} (hentry : entry ∈ s.entries) : AllWhole entry.value.nodes := by
  obtain ⟨span, path, entries⟩ := s
  obtain ⟨name, value⟩ := entry
  rw [Comparable.nodes, StructLiteral.nodes, entryNodes_eq] at h
  exact AllWhole.of_flatMap (List.forall_mem_cons.1 h).2 hentry

/-- No value joins less than two operands, whatever it is resolved for. -/
theorem mirror_forked (r : Resolver) : Mirror (fun c e => AllWhole c.nodes → e.Forked)
    (fun x e => AllWhole x.nodes → e.Forked) r where
  scalar c v hv _ := forked_of_scalar hv
  field m x f places _ _ _ := fun items hitems => by cases hitems
  call c s es _ hes hc := by
    obtain ⟨span, name, args⟩ := c
    rw [Comparable.nodes, Call.nodes, argNodes_eq] at hc
    refine Expr.forked_items (forall_mem_of_forall₂ hes fun arg harg e he => ?_)
    exact Arg.forked_of_mirrored he (AllWhole.of_flatMap (List.forall_mem_cons.1 hc).2 harg)
  array a es hes ha := by
    obtain ⟨span, elements⟩ := a
    rw [Comparable.nodes, ArrayLiteral.nodes, elementNodes_eq] at ha
    refine Expr.forked_items (forall_mem_of_forall₂ hes fun c hc e he => ?_)
    exact he (AllWhole.of_flatMap (List.forall_mem_cons.1 ha).2 hc)
  message s name fields hfields _ hs := by
    have hforked : ∀ field ∈ fields, field.2.Forked :=
      forall_mem_of_forall₂ hfields fun entry hentry field hfield => hfield.2 (hs.entry hentry)
    intro items hitems
    rw [Expr.junctions, Value.junctions, fieldJunctions_eq, List.mem_flatMap] at hitems
    obtain ⟨field, hfield, hitems⟩ := hitems
    exact hforked field hfield items hitems
  map s key pairs hpairs _ hs := by
    have hforked : ∀ pair ∈ pairs, pair.1.Forked ∧ pair.2.Forked := by
      refine forall_mem_of_forall₂ hpairs fun entry hentry pair hpair => ?_
      obtain ⟨k, -, hk, hpair⟩ := hpair
      refine ⟨?_, hpair (hs.entry hentry)⟩
      rw [hk]
      exact forked_of_scalar (by cases k <;> rfl)
    intro items hitems
    rw [Expr.junctions, entryJunctions_eq, List.mem_flatMap] at hitems
    obtain ⟨pair, hpair, hitems⟩ := hitems
    rcases List.mem_append.1 hitems with hitems | hitems
    · exact (hforked pair hpair).1 items hitems
    · exact (hforked pair hpair).2 items hitems
  group x e h hx := by
    refine h.forked (fun y e hy hnodes => ?_) hx
    cases y with
    | restriction z =>
      obtain ⟨span, c, comparison⟩ := z
      obtain ⟨rfl, hz⟩ := hy
      exact hz (List.forall_mem_cons.1 hnodes).2
    | composite c =>
      obtain ⟨span, x⟩ := c
      exact hy (List.forall_mem_cons.1 hnodes).2

theorem Restriction.forked_of_mirrored {x : Restriction} {e : Expr}
    (h : x.Mirrored (fun c e => AllWhole c.nodes → e.Forked)
      (fun x e => AllWhole x.nodes → e.Forked) e) (hx : AllWhole x.nodes) : e.Forked := by
  obtain ⟨span, c, comparison⟩ := x
  cases comparison with
  | none => exact h (List.forall_mem_cons.1 hx).2
  | some comparison =>
    obtain ⟨comparator, pos, arg⟩ := comparison
    obtain ⟨left, right, rfl, hleft, hright⟩ := h
    obtain ⟨hc, harg⟩ := AllWhole.of_append (List.forall_mem_cons.1 hx).2
    exact List.forall_mem_append.2 ⟨hleft hc, Arg.forked_of_mirrored hright harg⟩

namespace Resolve

variable {α β : Type}

/-- A run from the start that succeeds makes no report, and its value has the property. -/
def Gives (x : Resolve α) (Q : α → Prop) : Prop := ∀ a s, x [] = .ok a s → s = [] ∧ Q a

/-- A step that meets a property gives it, and the run that gives it is known. -/
theorem Meets.gives {faults : Prop} {x : Resolve α} {Q : α → Prop} (h : Meets faults x Q) :
    Gives x fun a => x [] = .ok a [] ∧ Q a := by
  intro a s ha
  have hx := h []
  rw [ha] at hx
  cases hx with
  | value hq => exact ⟨rfl, ha, hq⟩

theorem Gives.map {x : Resolve α} {Q : α → Prop} {R : β → Prop} (g : α → β) (hx : Gives x Q)
    (h : ∀ a, Q a → R (g a)) : Gives (do return g (← x)) R := by
  intro b s hb
  obtain ⟨a, s₁, ha, hb⟩ := bind_ok.1 hb
  obtain ⟨rfl, hq⟩ := hx a s₁ ha
  cases hb
  exact ⟨rfl, h a hq⟩

theorem gives_mapM {γ : Type} {f : γ → Resolve α} {R : γ → α → Prop}
    (h : ∀ x, Gives (f x) (R x)) : ∀ xs : List γ, Gives (xs.mapM f) (List.Forall₂ R xs)
  | [] => fun as s has => by cases has; exact ⟨rfl, .nil⟩
  | x :: xs => by
    intro as s has
    rw [List.mapM_cons] at has
    obtain ⟨a, s₁, ha, has⟩ := bind_ok.1 has
    obtain ⟨rfl, hr⟩ := h x a s₁ ha
    obtain ⟨as, s₂, has, hpure⟩ := bind_ok.1 has
    obtain ⟨rfl, hrs⟩ := gives_mapM h xs as s₂ has
    cases hpure
    exact ⟨rfl, .cons hr hrs⟩

end Resolve

/-! ## Filters -/

namespace Resolver

variable {r : Resolver}

/-- What a restriction resolves to on its own. -/
def atom? (r : Resolver) (x : Restriction) : Option Expr :=
  (r.restriction r.options.maxDepth x).run.1.toOption

theorem restriction_of_atom? {x : Restriction} {e : Expr} (h : r.atom? x = some e) :
    ∃ s, r.restriction r.options.maxDepth x [] = .ok e s := by
  rw [atom?, Resolve.run] at h
  cases hrun : r.restriction r.options.maxDepth x [] with
  | error e' s =>
    rw [hrun] at h
    cases h
  | ok e' s =>
    rw [hrun] at h
    cases h
    exact ⟨s, rfl⟩

/-- The truth of a restriction from the truth of what it resolves to. -/
def truth (r : Resolver) (v : Expr → Bool) (x : Restriction) : Bool := (r.atom? x).any v

theorem restriction_isAtom (hr : r.Ready True) (levels : Nat) (x : Restriction) :
    Meets True (r.restriction levels x) fun e => e.isAtom = true := by
  unfold restriction
  split
  · cases x.comparable with
    | member m =>
      refine meets_ite (fun _ => ?_) fun _ => meets_pure rfl
      exact (selectRoot_meets hr levels m).bind fun y _ => meets_pure rfl
    | call c =>
      refine (call_meets hr (innerAt_meets hr levels) c none).mono fun e he => ?_
      obtain ⟨s, -, args, rfl, -⟩ := he
      rfl
    | struct s => exact meets_fail _ _
    | array a => exact meets_fail _ _
  · refine (leftSide_meets hr levels x.comparable).bind fun y hy => ?_
    dsimp only
    rw [hooked_eq_none hr.hooks, pure_bind]
    exact (rightSide_meets hr levels hy.2.2 _).bind fun right _ => meets_pure rfl

/-- What a tree means, and that nothing in it is joined which stands alone. -/
structure Means (r : Resolver) (x : Expression) (e : Expr) : Prop where
  atoms : List.Forall₂ (fun x a => r.atom? x = some a ∧ a.isAtom = true) x.restrictions e.atoms
  holds : ∀ v, e.holds v = x.holds (r.truth v)
  forked : AllWhole x.nodes → e.Forked

/-- A restriction resolves, on whatever level it stands, to what it resolves to on its own. -/
theorem restriction_gives (hr : r.Ready True) {levels : Nat} (hlevels : levels ≤ r.options.maxDepth)
    (x : Restriction) : Gives (r.restriction levels x) fun e =>
      (r.atom? x = some e ∧ e.isAtom = true) ∧ (AllWhole x.nodes → e.Forked) := by
  intro e s he
  obtain ⟨rfl, hrun, hatom⟩ := (restriction_isAtom hr levels x).gives e s he
  obtain ⟨-, -, hmirror⟩ := ((mirror_forked r).restriction hr levels x).gives e _ he
  refine ⟨rfl, ⟨?_, hatom⟩, Restriction.forked_of_mirrored hmirror⟩
  have hfull := restriction_within hlevels x [] e [] hrun
  rw [atom?, Resolve.run, hfull]
  rfl

/-- What the operands of a tree mean: groups what their trees do, restrictions their atoms. -/
def SimpleMeans (r : Resolver) : Simple → Expr → Prop
  | .composite c => r.Means c.expression
  | .restriction x => fun e =>
    (r.atom? x = some e ∧ e.isAtom = true) ∧ (AllWhole x.nodes → e.Forked)

theorem Means.of_assembled {x : Expression} {e : Expr} (h : x.Assembled r.SimpleMeans e) :
    r.Means x e where
  atoms := by
    refine h.atoms fun y e hy => ?_
    cases y with
    | composite c =>
      obtain ⟨span, x⟩ := c
      exact hy.atoms
    | restriction x =>
      rw [Expr.atoms_of_isAtom hy.1.2]
      exact .cons hy.1 .nil
  holds v := by
    refine h.holds fun y e hy => ?_
    cases y with
    | composite c =>
      obtain ⟨span, x⟩ := c
      exact hy.holds v
    | restriction x =>
      rw [Expr.holds_of_isAtom hy.1.2, Simple.holds, truth, hy.1.1]
      rfl
  forked := by
    refine h.forked fun y e hy hnodes => ?_
    cases y with
    | composite c =>
      obtain ⟨span, x⟩ := c
      exact hy.forked (List.forall_mem_cons.1 hnodes).2
    | restriction x => exact hy.2 hnodes

theorem expressionBody_assembled (hr : r.Ready True) {levels : Nat}
    (hlevels : levels ≤ r.options.maxDepth) {inner : Expression → Resolve Expr}
    (hi : ∀ x, Gives (inner x) (r.Means x)) (x : Expression) :
    Gives (r.expressionBody levels inner x) (x.Assembled r.SimpleMeans) := by
  refine Gives.map _ (gives_mapM (fun s => ?_) x.sequences) fun es hes => ⟨es, hes, rfl⟩
  refine Gives.map _ (gives_mapM (fun f => ?_) s.factors) fun es hes => ⟨es, hes, rfl⟩
  refine Gives.map _ (gives_mapM (fun t => ?_) f.terms) fun es hes => ⟨es, hes, rfl⟩
  obtain ⟨span, unary, simple, orPos⟩ := t
  cases simple with
  | composite c => exact Gives.map _ (hi c.expression) fun e he => ⟨e, he, rfl⟩
  | restriction y =>
    exact Gives.map _ (restriction_gives hr hlevels y) fun e he => ⟨e, he, rfl⟩

/-- By induction on the levels: the operands of a tree are restrictions, and groups that have one
level less. -/
theorem expression_means (hr : r.Ready True) {levels : Nat}
    (hlevels : levels ≤ r.options.maxDepth) (x : Expression) :
    Gives (r.expression levels x) (r.Means x) := by
  induction levels generalizing x with
  | zero =>
    intro e s he
    simp only [expression] at he
    cases he
  | succ levels ih =>
    have hle : levels ≤ r.options.maxDepth := by omega
    intro e s he
    simp only [expression] at he
    obtain ⟨hs, he⟩ := expressionBody_assembled hr hle (ih hle) x e s he
    exact ⟨hs, .of_assembled he⟩

/-- What a stored tree resolves to is what it means. -/
theorem means_of_run (hhooks : r.options.HookFree) {store : Store} {tree : Expression}
    {filter : ResolvedFilter} {reports : List (Report ValueCause)}
    (h : (r.resolve (store.load (some tree))).run = (.ok filter, reports)) :
    ∃ e, filter.expr = some e ∧ r.Means tree e := by
  have hr : r.Ready True := ⟨hhooks, fun hfault => absurd trivial hfault⟩
  rw [resolve_load, Resolve.run] at h
  cases hrun : r.resolveTree (some tree) [] with
  | error e s =>
    rw [hrun] at h
    cases h
  | ok f s =>
    rw [hrun] at h
    cases h
    rw [resolveTree_some] at hrun
    obtain ⟨e, s₁, he, hpure⟩ := bind_ok.1 hrun
    cases hpure
    exact ⟨e, rfl, (expression_means hr (Nat.le_refl _) tree e _ he).2⟩

end Resolver

/-- A filter that has been read has, once resolved, the truth of its tree, whatever the truth of its
restrictions. Its atoms are what the restrictions of the tree resolve to, one by one, and each
conjunction and disjunction in it, at any depth, has two operands or more. -/
theorem Resolver.resolve_logic {r : Resolver} (hhooks : r.options.HookFree) {before store : Store}
    {o : ParserOptions} {input : String} (hparse : before.reparse o input = .ok store)
    {tree : Expression} (htree : store.tree? = some tree) {filter : ResolvedFilter}
    {reports : List (Report ValueCause)} (h : (r.resolve store).run = (.ok filter, reports)) :
    ∃ e, filter.expr = some e ∧
      List.Forall₂ (fun x a => r.atom? x = some a ∧ a.isAtom = true) tree.restrictions e.atoms ∧
      (∀ v : Expr → Bool, e.holds v = tree.holds (r.truth v)) ∧
      ∀ items ∈ e.junctions, 2 ≤ items.length := by
  obtain ⟨x, hx, rfl⟩ := Store.reparse_ok.1 hparse
  rw [Store.tree?_load] at htree
  subst htree
  obtain ⟨e, he, hmeans⟩ := Resolver.means_of_run hhooks h
  exact ⟨e, he, hmeans.atoms, hmeans.holds, hmeans.forked (allWhole_of_parse hx)⟩

/-- Groups in groups, both kinds of negation, and a group of values with one in parentheses. -/
theorem nested_groups_logic : ∃ store tree filter reports e,
    Store.empty.reparse .allExtensions
      "(name = a OR NOT (now() AND b)) -name = ((c) OR (d NOT e) AND f)" = .ok store ∧
    store.tree? = some tree ∧
    (directEventResolver.resolve store).run = (.ok filter, reports) ∧ filter.expr = some e ∧
    (e.atoms.length, e.junctions.map List.length) = (4, [2, 2, 2, 2, 2, 2]) ∧
    List.Forall₂ (fun x a => directEventResolver.atom? x = some a ∧ a.isAtom = true)
      tree.restrictions e.atoms ∧
    (∀ v : Expr → Bool, e.holds v = tree.holds (directEventResolver.truth v)) ∧
    ∀ items ∈ e.junctions, 2 ≤ items.length := by
  obtain ⟨store, filter, reports, e, hstore, hrun, he, hcounts⟩ :=
    exists_of_resolve_any directEventResolver .allExtensions
      "(name = a OR NOT (now() AND b)) -name = ((c) OR (d NOT e) AND f)"
      (fun e => (e.atoms.length, e.junctions.map List.length) == (4, [2, 2, 2, 2, 2, 2]))
      (by decide +kernel)
  obtain ⟨tree, htree⟩ : ∃ tree, store.tree? = some tree := by
    obtain ⟨x, -, rfl⟩ := Store.reparse_ok.1 hstore
    cases x with
    | none =>
      rw [Resolver.resolve_load] at hrun
      cases hrun
      cases he
    | some tree => exact ⟨tree, Store.tree?_load _ _⟩
  obtain ⟨e', he', hlogic⟩ := Resolver.resolve_logic ⟨rfl, rfl⟩ hstore htree hrun
  cases he.symm.trans he'
  exact ⟨store, tree, filter, reports, e, hstore, htree, hrun, he, eq_of_beq hcounts, hlogic⟩

end ListQuery.Filter
