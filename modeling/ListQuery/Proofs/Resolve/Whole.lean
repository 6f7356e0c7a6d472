/-
Parentheses around a whole filter change nothing but the places of what fails: read and resolved
with one level of nesting more, the filter in parentheses gives what the filter gives, or fails
where the filter fails, one byte further to the right. Main statement: `Resolver.resolve_enclosed`.
-/
import ListQuery.Proofs.Parse.Whole
import ListQuery.Proofs.Resolve.Filters
import ListQuery.Proofs.Resolve.Moved

namespace ListQuery.Filter

open Resolve

/-- What a run from no reports comes to, when another one moves with it. -/
theorem Resolve.Moves.run {α : Type} {m : Move} {x y : Resolve α} (h : Moves m x y) :
    y.run.1 = x.run.1.mapError (FilterError.moved m) := by
  unfold Resolve.run
  rcases h [] [] with ⟨a, s, t, hx, hy⟩ | ⟨e, s, t, hx, hy⟩
  · rw [hx, hy]
    rfl
  · rw [hx, hy]
    rfl

namespace Resolver

variable {r : Resolver}

/-- A group alone is what stands in it, one level further down. -/
theorem expression_enclosing (levels : Nat) (span : Span) (e : Expression) :
    r.expression (levels + 1) (.enclosing span e) = r.expression levels e :=
  expression_of_single ⟨span, span, span, span, rfl⟩

/-- A whole tree in a group, moved, with one level more for the group. -/
theorem resolveTree_enclosing {m : Move} (hhooks : r.options.HookFree) (span : Span)
    (e : Expression) :
    Moves m (r.resolveTree (some e))
      ((r.withDepth (r.options.maxDepth + 1)).resolveTree
        (some (.enclosing span (e.moved m)))) := by
  have hexpression : (r.withDepth (r.options.maxDepth + 1)).expression (r.options.maxDepth + 1)
      (.enclosing span (e.moved m)) = _ := expression_enclosing _ span _
  rw [resolveTree_some, resolveTree_some]
  refine Moves.bind ?_ fun _ => moves_pure _
  show Moves m _ ((r.withDepth (r.options.maxDepth + 1)).expression (r.options.maxDepth + 1) _)
  rw [hexpression]
  exact expression_moved hhooks _ e

/-- A filter that is read can be read in parentheses, with one level of nesting more, and both
resolve alike: with one level more the second gives the same expression at the same cost, or fails
where the first fails, one byte further to the right. -/
theorem resolve_enclosed (hhooks : r.options.HookFree) {o : ParserOptions} {text : String}
    {before store : Store} (h : before.reparse o text = .ok store) (hsome : store.tree? ≠ none)
    (before' : Store) :
    ∃ enclosed,
      before'.reparse (o.withDepth (o.maxDepth + 1)) ("(" ++ text ++ ")") = .ok enclosed ∧
      ((r.withDepth (r.options.maxDepth + 1)).resolve enclosed).run.1 =
        (r.resolve store).run.1.mapError (FilterError.moved .right) := by
  obtain ⟨x, hx, rfl⟩ := Store.reparse_ok.1 h
  rw [Store.tree?_load] at hsome
  obtain ⟨e, rfl⟩ := Option.ne_none_iff_exists'.1 hsome
  refine ⟨_, Store.reparse_ok.2 ⟨_, parse_parentheses hx, rfl⟩, ?_⟩
  rw [resolve_load, resolve_load]
  exact (resolveTree_enclosing hhooks _ e).run

end Resolver

/-- A filter that resolves, with `NOT` as a sign and as a text, and one that fails behind a line
break and a character of two bytes; both alone and in parentheses. -/
theorem enclosed_alike :
    (∃ store enclosed filter,
      Store.empty.reparse {} "counts.x = (2 OR 3)\nNOT name = NOT" = .ok store ∧
      Store.empty.reparse { maxDepth := 201 } "(counts.x = (2 OR 3)\nNOT name = NOT)" =
        .ok enclosed ∧
      (directEventResolver.resolve store).run.1 = .ok filter ∧
      ((directEventResolver.withDepth 201).resolve enclosed).run.1 = .ok filter ∧
      filter.complexity = 2) ∧
    ∃ store enclosed,
      Store.empty.reparse {} "name = 'é'\nAND counts.x = later" = .ok store ∧
      Store.empty.reparse { maxDepth := 201 } "(name = 'é'\nAND counts.x = later)" =
        .ok enclosed ∧
      (eventResolver.resolve store).run.1 = .error (.invalidValue ⟨27, 2, 16⟩) ∧
      ((eventResolver.withDepth 201).resolve enclosed).run.1 =
        .error (.invalidValue ⟨28, 2, 16⟩) := by
  refine ⟨?_, ?_⟩
  · obtain ⟨store, hstore, h⟩ := exists_of_any
      (Store.empty.reparse {} "counts.x = (2 OR 3)\nNOT name = NOT")
      (fun s => s.tree?.isSome &&
        (directEventResolver.resolve s).run.1.toOption.any fun filter => filter.complexity == 2)
      (by decide +kernel)
    rw [Bool.and_eq_true] at h
    obtain ⟨filter, hrun, hcost⟩ := exists_of_any _ _ h.2
    obtain ⟨enclosed, henclosed, hsame⟩ := directEventResolver.resolve_enclosed ⟨rfl, rfl⟩ hstore
      (Option.isSome_iff_ne_none.1 h.1) .empty
    rw [hrun] at hsame
    exact ⟨store, enclosed, filter, hstore, henclosed, hrun, hsame, eq_of_beq hcost⟩
  · obtain ⟨store, hstore, h⟩ := exists_of_any
      (Store.empty.reparse {} "name = 'é'\nAND counts.x = later")
      (fun s => s.tree?.isSome && match (eventResolver.resolve s).run.1 with
        | .ok _ => false
        | .error e => e == .invalidValue ⟨27, 2, 16⟩)
      (by decide +kernel)
    rw [Bool.and_eq_true] at h
    obtain ⟨enclosed, henclosed, hsame⟩ := eventResolver.resolve_enclosed eventResolver_hookFree
      hstore (Option.isSome_iff_ne_none.1 h.1) .empty
    have hrun : (eventResolver.resolve store).run.1 = .error (.invalidValue ⟨27, 2, 16⟩) := by
      cases hrun : (eventResolver.resolve store).run.1 with
      | ok filter => simp [hrun] at h
      | error e => simpa [hrun] using h.2
    rw [hrun] at hsame
    exact ⟨store, enclosed, hstore, henclosed, hrun, hsame⟩

end ListQuery.Filter
