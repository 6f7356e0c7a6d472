/-
The operands of a tree, its restrictions and groups (`Expression.simples`). Whatever sequences,
factors and terms only pass on is collected from the operands.
-/
import Mathlib.Data.List.Basic
import ListQuery.Filter.Tree.Leaves
import ListQuery.Proofs.Tree.Shape

namespace ListQuery.Filter

namespace Expression

/-- The operands of a tree, its restrictions and groups, in the order of the text. -/
def simples (x : Expression) : List Simple :=
  x.sequences.flatMap fun s => s.factors.flatMap fun f => f.terms.map Term.simple

variable {γ : Type}

theorem eq_flatMap_simples {onExpression : Expression → List γ} {onSequence : Sequence → List γ}
    {onFactor : Factor → List γ} {onTerm : Term → List γ} {onSimple : Simple → List γ}
    (hexpression : ∀ x, onExpression x = x.sequences.flatMap onSequence)
    (hsequence : ∀ s, onSequence s = s.factors.flatMap onFactor)
    (hfactor : ∀ f, onFactor f = f.terms.flatMap onTerm)
    (hterm : ∀ t, onTerm t = onSimple t.simple) (x : Expression) :
    onExpression x = x.simples.flatMap onSimple := by
  have hfactor (f : Factor) : onFactor f = (f.terms.map Term.simple).flatMap onSimple := by
    rw [hfactor, List.flatMap_map]
    exact List.flatMap_congr fun t _ => hterm t
  have hsequence (s : Sequence) : onSequence s =
      (s.factors.flatMap fun f => f.terms.map Term.simple).flatMap onSimple := by
    rw [hsequence, List.flatMap_assoc]
    exact List.flatMap_congr fun f _ => hfactor f
  rw [hexpression, simples, List.flatMap_assoc]
  exact List.flatMap_congr fun s _ => hsequence s

theorem leaves_eq (x : Expression) : x.leaves = x.simples.flatMap Simple.leaves := by
  refine @eq_flatMap_simples _ Expression.leaves Sequence.leaves Factor.leaves Term.leaves _
    ?_ ?_ ?_ ?_ x
  · rintro ⟨span, ss⟩
    exact eq_flatMap_of_cons (f := sequenceLeaves) rfl (fun _ _ => rfl) ss
  · rintro ⟨span, fs⟩
    exact eq_flatMap_of_cons (f := factorLeaves) rfl (fun _ _ => rfl) fs
  · rintro ⟨span, ts⟩
    exact eq_flatMap_of_cons (f := termLeaves) rfl (fun _ _ => rfl) ts
  · rintro ⟨span, unary, simple, orPos⟩
    rfl

/-- What is picked from the nodes of a tree is picked from its operands, if nothing is picked from
the nodes that join them. -/
theorem filterMap_nodes (p : Node → Option γ) (hexpression : ∀ x, p (.expression x) = none)
    (hsequence : ∀ s, p (.sequence s) = none) (hfactor : ∀ f, p (.factor f) = none)
    (hterm : ∀ t, p (.term t) = none) (x : Expression) :
    x.nodes.filterMap p = x.simples.flatMap fun y => y.nodes.filterMap p := by
  refine @eq_flatMap_simples γ (fun x => x.nodes.filterMap p) (fun s => s.nodes.filterMap p)
    (fun f => f.nodes.filterMap p) (fun t => t.nodes.filterMap p) _ ?_ ?_ ?_ ?_ x
  · rintro ⟨span, ss⟩
    dsimp only
    rw [Expression.nodes, sequenceNodes_eq, List.filterMap_cons_none (hexpression _),
      List.filterMap_flatMap]
  · rintro ⟨span, fs⟩
    dsimp only
    rw [Sequence.nodes, factorNodes_eq, List.filterMap_cons_none (hsequence _),
      List.filterMap_flatMap]
  · rintro ⟨span, ts⟩
    dsimp only
    rw [Factor.nodes, termNodes_eq, List.filterMap_cons_none (hfactor _), List.filterMap_flatMap]
  · rintro ⟨span, unary, simple, orPos⟩
    dsimp only
    rw [Term.nodes, List.filterMap_cons_none (hterm _)]

end Expression

theorem argLeaves_eq (xs : List Arg) : argLeaves xs = xs.flatMap Arg.leaves :=
  eq_flatMap_of_cons rfl (fun _ _ => rfl) xs

theorem entryLeaves_eq (xs : List StructEntry) : entryLeaves xs = xs.flatMap StructEntry.leaves :=
  eq_flatMap_of_cons rfl (fun _ _ => rfl) xs

theorem elementLeaves_eq (xs : List Comparable) :
    elementLeaves xs = xs.flatMap Comparable.leaves :=
  eq_flatMap_of_cons rfl (fun _ _ => rfl) xs

end ListQuery.Filter
