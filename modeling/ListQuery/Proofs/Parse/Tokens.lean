/-
The tokens of a text that was read, told apart by what they are in its tree. Main statement:
`Store.reparse_tokens`.
-/
import ListQuery.Proofs.Parse.Loading
import ListQuery.Proofs.Parse.Takes

namespace ListQuery.Filter

open Role

theorem pieces_of_fits {rs : List Role} {ts : List Token} (h : List.Forall₂ Fits rs ts)
    (hts : ∀ t ∈ ts, ∃ r, t.piece.Lexes r) : rs.map Role.piece = ts.map Token.piece := by
  induction h with
  | nil => rfl
  | @cons r t rs ts hfits _ ih =>
    have hpiece : r.piece = t.piece := by
      cases r with
      | leaf l =>
        obtain rfl : l.token = t := hfits
        rfl
      | sign p =>
        obtain ⟨hk, hp⟩ := hfits
        obtain ⟨_, hlex⟩ := hts t List.mem_cons_self
        exact (hlex.eq_of_kind hk hp).symm
    rw [List.map_cons, List.map_cons, hpiece,
      ih fun t ht => hts t (List.mem_cons_of_mem _ ht)]

/-- The leaves are the tokens that play the part of a leaf. -/
theorem leaves_of_fits {rs : List Role} {ts : List Token} (h : List.Forall₂ Fits rs ts) :
    (leavesOf rs).map Leaf.token = ((rs.zip ts).filter fun x => x.1.isLeaf).map Prod.snd := by
  induction h with
  | nil => rfl
  | @cons r t rs ts hfits _ ih =>
    cases r with
    | leaf l =>
      obtain rfl : l.token = t := hfits
      exact congrArg (l.token :: ·) ih
    | sign p => exact ih

theorem Store.yield_load (s : Store) (tree : Option Expression) :
    (s.load tree).yield = tree.elim [] Expression.yield := by
  rw [Store.yield, Store.tree?_load]
  cases tree <;> rfl

/-- Reading a filter neither loses, invents nor moves a token: the tokens that the stored tree
stands for are those of the text, blanks apart, and its leaves are the ones among them that are
neither operators nor delimiters. -/
theorem Store.reparse_tokens (before : Store) (o : ParserOptions) (input : String) (store : Store)
    (h : before.reparse o input = .ok store) :
    let tokens := (Lexer.ofString input).tokenize.filter fun t => t.kind.isSolid
    store.yield.map Role.piece = tokens.map Token.piece ∧
    (store.isEmpty = true ↔ tokens = []) ∧
    store.leaves.map Leaf.token =
      ((store.yield.zip tokens).filter fun x => x.1.isLeaf).map Prod.snd ∧
    store.leaves.Pairwise fun a b => a.pos.offset < b.pos.offset := by
  intro tokens
  have htokens : tokens = solidTokens input := by rw [solidTokens, ← Lexer.tokenize_ofString]
  obtain ⟨x, hx, rfl⟩ := Store.reparse_ok.1 h
  have hfits := parse_fits hx
  have hleaves : (before.load x).leaves = leavesOf (x.elim [] Expression.yield) := by
    rw [Store.leaves_load]
    cases x with
    | none => rfl
    | some e => exact e.leavesOf_yield.symm
  rw [htokens, Store.yield_load, Store.isEmpty_load, hleaves]
  refine ⟨pieces_of_fits hfits lexes_of_mem_solidTokens, ?_, leaves_of_fits hfits, ?_⟩
  · cases x with
    | none => exact iff_of_true rfl (List.forall₂_nil_left_iff.1 hfits)
    | some e => exact iff_of_false Bool.false_ne_true (solidTokens_ne_nil hx)
  · have hsublist := (leaves_sublist_of_fits hfits).trans List.filter_sublist
    have hpairwise := (tokens_pairwise input).sublist hsublist
    exact hpairwise.of_map Leaf.token fun _ _ h => h

/-- Keywords as operators and as names side by side, with a blank more than needed. -/
theorem keywords_by_role : ∃ store,
    Store.empty.reparse .allExtensions "AND AND  NOT OR.NOT IN [in, -1] OR f(OR)" = .ok store ∧
    store.leaves.map Leaf.raw = ["AND", "OR", "NOT", "in", "-1", "f", "OR"] ∧
    let tokens := (Lexer.ofString "AND AND  NOT OR.NOT IN [in, -1] OR f(OR)").tokenize.filter
      fun t => t.kind.isSolid
    store.yield.map Role.piece = tokens.map Token.piece ∧
    (store.isEmpty = true ↔ tokens = []) ∧
    store.leaves.map Leaf.token =
      ((store.yield.zip tokens).filter fun x => x.1.isLeaf).map Prod.snd ∧
    store.leaves.Pairwise fun a b => a.pos.offset < b.pos.offset := by
  obtain ⟨e, he, hraw⟩ := exists_of_parse_any .allExtensions
    "AND AND  NOT OR.NOT IN [in, -1] OR f(OR)"
    (fun e => e.leaves.map Leaf.raw = ["AND", "OR", "NOT", "in", "-1", "f", "OR"])
    (by decide +kernel)
  have hstore : Store.empty.reparse .allExtensions "AND AND  NOT OR.NOT IN [in, -1] OR f(OR)" =
      .ok (Store.empty.load (some e)) := Store.reparse_ok.2 ⟨some e, he, rfl⟩
  refine ⟨Store.empty.load (some e), hstore, ?_, Store.reparse_tokens _ _ _ _ hstore⟩
  rw [Store.leaves_load]
  exact hraw

end ListQuery.Filter
