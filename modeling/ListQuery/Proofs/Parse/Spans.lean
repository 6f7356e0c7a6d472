/-
The spans of the trees that are read. Every node of a tree stands on a stretch of the tokens of the
text and spans it from the front of the first token to the end of the last one. So the spans of the
nodes below a node lie in its own, one behind the other (`Node.Nested`), and each term of a factor
keeps the place of the `OR` behind it (`Factor.Linked`). Main statement: `Store.reparse_spans`.
-/
import ListQuery.Proofs.Parse.Loading
import ListQuery.Proofs.Parse.Takes

namespace ListQuery.Filter

mutual

/-- All nodes of a tree stand on stretches of its tokens. -/
theorem Node.Stands.of_mem {m : Node} : ∀ {n : Node} {ts : List Token}, n.Stands ts →
    m ∈ n.nodes → ∃ us, us <:+: ts ∧ m.Stands us
  | n, ts, .intro parts span, hm => by
    rw [n.nodes_eq] at hm
    rcases List.mem_cons.1 hm with rfl | hm
    · exact ⟨ts, List.infix_rfl, .intro parts span⟩
    · exact parts.of_mem hm

theorem Part.Stand.of_mem {m : Node} : ∀ {ps : List Part} {ts : List Token}, Part.Stand ps ts →
    m ∈ ps.flatMap Part.nodes → ∃ us, us <:+: ts ∧ m.Stands us
  | _, _, .nil, hm => absurd hm List.not_mem_nil
  | _, _, .token _ tail, hm => by
    obtain ⟨us, hus, hm⟩ := tail.of_mem hm
    exact ⟨us, hus.trans (List.suffix_cons _ _).isInfix, hm⟩
  | _, _, .operator _ tail, hm => by
    obtain ⟨us, hus, hm⟩ := tail.of_mem hm
    exact ⟨us, hus.trans (List.suffix_cons _ _).isInfix, hm⟩
  | _, _, .unjoined tail, hm => tail.of_mem hm
  | _, _, .node head tail, hm => by
    rcases List.mem_append.1 hm with hm | hm
    · obtain ⟨us, hus, hm⟩ := head.of_mem hm
      exact ⟨us, hus.trans (List.prefix_append _ _).isInfix, hm⟩
    · obtain ⟨us, hus, hm⟩ := tail.of_mem hm
      exact ⟨us, hus.trans (List.suffix_append _ _).isInfix, hm⟩

end

/-- The spans of the nodes below a node lie in its own, and each starts where the one before it has
ended. -/
structure Node.Nested (n : Node) : Prop where
  inside : ∀ m ∈ n.children,
    n.span.start.offset ≤ m.span.start.offset ∧ m.span.stop ≤ n.span.stop
  apart : n.children.Pairwise fun a b => a.span.stop ≤ b.span.start.offset

theorem Span.Covers.ends {span : Span} {ts : List Token} (h : span.Covers ts) :
    (∃ first ∈ ts, span.start = first.pos) ∧ ∃ last ∈ ts, span.stop = last.stop := by
  obtain ⟨first, last, hfirst, hlast, rfl⟩ := h
  exact ⟨⟨first, List.mem_of_head? hfirst, rfl⟩, last, List.mem_of_getLast? hlast, rfl⟩

theorem Node.Stands.covers {n : Node} {ts : List Token} (h : n.Stands ts) : n.span.Covers ts := by
  cases h with
  | intro _ span => exact span

theorem Node.Stands.parts_stand {n : Node} {ts : List Token} (h : n.Stands ts) :
    Part.Stand n.parts ts := by
  cases h with
  | intro parts _ => exact parts

/-- The nodes among the parts stand on stretches of the tokens. -/
theorem Part.Stand.child {m : Node} {ps : List Part} {ts : List Token} (h : Part.Stand ps ts)
    (hm : m ∈ ps.filterMap Part.node?) : ∃ us, us <:+: ts ∧ m.Stands us := by
  obtain ⟨p, hp, hpm⟩ := List.mem_filterMap.1 hm
  cases p with
  | node n =>
    obtain rfl : n = m := Option.some.inj hpm
    refine h.of_mem (List.mem_flatMap.2 ⟨_, hp, ?_⟩)
    rw [Part.nodes_node, Node.nodes_eq]
    exact List.mem_cons_self
  | _ => cases hpm

theorem Part.Stand.apart : ∀ {ps : List Part} {ts : List Token}, Part.Stand ps ts →
    ts.Pairwise Token.Before →
    (ps.filterMap Part.node?).Pairwise fun a b => a.span.stop ≤ b.span.start.offset
  | _, _, .nil, _ => List.Pairwise.nil
  | _, _, .token _ tail, hts => tail.apart hts.of_cons
  | _, _, .operator _ tail, hts => tail.apart hts.of_cons
  | _, _, .unjoined tail, hts => tail.apart hts
  | _, _, .node head tail, hts => by
    obtain ⟨-, htail, hcross⟩ := List.pairwise_append.1 hts
    refine List.pairwise_cons.2 ⟨fun b hb => ?_, tail.apart htail⟩
    obtain ⟨us, hus, hb⟩ := tail.child hb
    obtain ⟨-, last, hlast, hstop⟩ := head.covers.ends
    obtain ⟨⟨first, hfirst, hstart⟩, -⟩ := hb.covers.ends
    rw [hstop, hstart]
    exact hcross last hlast first (hus.subset hfirst)

theorem Node.Stands.nested {n : Node} {ts : List Token} (h : n.Stands ts)
    (hts : ts.Pairwise Token.Before) : n.Nested where
  inside m hm := by
    obtain ⟨us, hus, hm⟩ := h.parts_stand.child hm
    obtain ⟨⟨first, hfirst, hstart⟩, last, hlast, hstop⟩ := hm.covers.ends
    obtain ⟨front, back, hfront, hback, hspan⟩ := h.covers
    rw [hstart, hstop, hspan]
    exact ⟨Token.first_le hts hfront (hus.subset hfirst),
      Token.le_last hts hback (hus.subset hlast)⟩
  apart := h.parts_stand.apart hts

/-! ## Terms and the `OR` between them -/

/-- Between the terms stands one token, an `OR`, and the first of them keeps its place. -/
def Term.Joined (tokens : List Token) (t u : Term) : Prop :=
  ∃ a x b, [a, x, b] <:+: tokens ∧ x.kind = .orWord ∧
    t.span.stop = a.stop ∧ t.orPos = some x.pos ∧ u.span.start = b.pos

/-- Each term keeps the place of the `OR` behind it, and the last one keeps none. -/
structure Factor.Linked (tokens : List Token) (f : Factor) : Prop where
  joined : f.terms.IsChain (Term.Joined tokens)
  last : ∀ t ∈ f.terms.getLast?, t.orPos = none

theorem Part.ofTerms_head (t : Term) (ts : List Term) :
    ∃ ps, ofTerms (t :: ts) = node (.term t) :: ps := by
  cases ts <;> exact ⟨_, rfl⟩

theorem Term.joined_of_stands {t u : Term} {x : Token} {us ws vs : List Token}
    (ht : (Node.term t).Stands us) (hu : (Node.term u).Stands ws) (hx : x.kind = .orWord)
    (hpos : t.orPos = some x.pos) : t.Joined (us ++ x :: (ws ++ vs)) u := by
  obtain ⟨_, a, _, ha, hstop⟩ := ht.covers
  obtain ⟨b, _, hb, _, hstart⟩ := hu.covers
  obtain ⟨us, rfl⟩ := List.getLast?_eq_some_iff.1 ha
  obtain ⟨ws, rfl⟩ := List.head?_eq_some_iff.1 hb
  refine ⟨a, x, b, ⟨us, ws ++ vs, by simp⟩, hx, ?_, hpos, ?_⟩
  · exact congrArg Span.stop hstop
  · exact congrArg Span.start hstart

theorem Term.Joined.mono {ts tokens : List Token} {t u : Term} (h : t.Joined ts u)
    (hts : ts <:+: tokens) : t.Joined tokens u := by
  obtain ⟨a, x, b, hinfix, hrest⟩ := h
  exact ⟨a, x, b, hinfix.trans hts, hrest⟩

theorem Factor.Linked.mono {ts tokens : List Token} {f : Factor} (h : f.Linked ts)
    (hts : ts <:+: tokens) : f.Linked tokens :=
  ⟨h.joined.imp fun _ _ hjoined => hjoined.mono hts, h.last⟩

theorem Factor.linked_of_stand (span : Span) : ∀ {terms : List Term} {ts : List Token},
    Part.Stand (Part.ofTerms terms) ts → Factor.Linked ts ⟨span, terms⟩
  | [], _, _ => ⟨List.isChain_nil, fun _ h => by cases h⟩
  | [t], _, h => by
    obtain ⟨us, vs, -, -, h⟩ := h.of_node
    refine ⟨List.isChain_singleton t, fun u hu => ?_⟩
    obtain rfl : t = u := Option.some.inj hu
    exact h.of_unjoined.1
  | t :: u :: terms, _, h => by
    rw [Part.ofTerms_cons (List.cons_ne_nil u terms)] at h
    obtain ⟨us, vs, rfl, ht, h⟩ := h.of_node
    obtain ⟨x, vs, rfl, hx, hpos, h⟩ := h.of_operator
    have ih := Factor.linked_of_stand span h
    -- the rest starts with the next term, whose first token stands behind the `OR`
    have hsuffix : vs <:+: us ++ x :: vs := ⟨us ++ [x], [], by simp⟩
    obtain ⟨ws, zs, hvs, hu⟩ : ∃ ws zs, vs = ws ++ zs ∧ (Node.term u).Stands ws := by
      obtain ⟨ps, hps⟩ := Part.ofTerms_head u terms
      rw [hps] at h
      obtain ⟨ws, zs, hvs, hu, -⟩ := h.of_node
      exact ⟨ws, zs, hvs, hu⟩
    refine ⟨List.isChain_cons_cons.2 ⟨?_, (ih.mono hsuffix).joined⟩, fun v hv => ih.last v ?_⟩
    · rw [hvs]
      exact Term.joined_of_stands ht hu hx.1 hpos
    · simpa using hv

theorem Node.Stands.linked {f : Factor} {ts : List Token} (h : (Node.factor f).Stands ts) :
    f.Linked ts := by
  cases f
  exact Factor.linked_of_stand _ h.parts_stand

/-- The places in a tree are those of the tokens that it was read from. -/
structure Expression.Placed (tokens : List Token) (e : Expression) : Prop where
  /-- The tokens are those of the tree, part by part. -/
  stands : (Node.expression e).Stands tokens
  spans : ∀ n ∈ e.nodes, ∃ ts, ts <:+: tokens ∧
    List.Forall₂ Role.Fits n.yield ts ∧ n.span.Covers ts
  linked : ∀ f, .factor f ∈ e.nodes → f.Linked tokens
  nested : ∀ n ∈ e.nodes, n.Nested

theorem Node.Stands.placed {e : Expression} {tokens : List Token}
    (h : (Node.expression e).Stands tokens) (htokens : tokens.Pairwise Token.Before) :
    e.Placed tokens where
  stands := h
  spans n hn := by
    obtain ⟨ts, hts, hn⟩ := h.of_mem hn
    exact ⟨ts, hts, hn.fits, hn.covers⟩
  linked f hf := by
    obtain ⟨ts, hts, hf⟩ := h.of_mem hf
    exact hf.linked.mono hts
  nested n hn := by
    obtain ⟨ts, hts, hn⟩ := h.of_mem hn
    exact hn.nested (htokens.sublist hts.sublist)

theorem solidTokens_before (input : String) : (solidTokens input).Pairwise Token.Before :=
  (tokens_before input).filter _

/-- Every node of the tree that is read from a text stands on tokens of the text that are its own,
and its span goes from the front of the first of them to the end of the last. A term keeps the place
of the `OR` behind it, and the spans of nodes lie in one another as the nodes do. -/
theorem Store.reparse_spans (before : Store) (o : ParserOptions) (input : String) (store : Store)
    (h : before.reparse o input = .ok store) :
    ∀ e ∈ store.tree?,
      e.Placed ((Lexer.ofString input).tokenize.filter fun t => t.kind.isSolid) := by
  intro e he
  obtain ⟨x, hx, rfl⟩ := Store.reparse_ok.1 h
  rw [Store.tree?_load, Option.mem_def] at he
  subst he
  have htokens : ((Lexer.ofString input).tokenize.filter fun t => t.kind.isSolid) =
      solidTokens input := by rw [solidTokens, ← Lexer.tokenize_ofString]
  rw [htokens]
  exact (parse_stand hx).of_single.placed (solidTokens_before input)

/-- A blank inside of a list, two before an operator, and a word at the end that looks like an
operator: none of them widens a span. -/
theorem spans_beside_blanks : ∃ store e,
    Store.empty.reparse .allExtensions "NOT a  OR b:[ ] NOT " = .ok store ∧
    store.tree? = some e ∧
    (e.nodes.map fun n => (n.span.start.offset, n.span.stop)) =
      [(0, 19), (0, 19), (0, 15), (0, 5), (4, 5), (4, 5), (10, 15), (10, 15), (10, 11), (12, 15),
        (16, 19), (16, 19), (16, 19), (16, 19)] ∧
    e.Placed ((Lexer.ofString "NOT a  OR b:[ ] NOT ").tokenize.filter fun t => t.kind.isSolid) := by
  obtain ⟨e, he, hspans⟩ := exists_of_parse_any .allExtensions "NOT a  OR b:[ ] NOT "
    (fun e => (e.nodes.map fun n => (n.span.start.offset, n.span.stop)) =
      [(0, 19), (0, 19), (0, 15), (0, 5), (4, 5), (4, 5), (10, 15), (10, 15), (10, 11), (12, 15),
        (16, 19), (16, 19), (16, 19), (16, 19)])
    (by decide +kernel)
  have hstore : Store.empty.reparse .allExtensions "NOT a  OR b:[ ] NOT " =
      .ok (Store.empty.load (some e)) := Store.reparse_ok.2 ⟨some e, he, rfl⟩
  have htree : (Store.empty.load (some e)).tree? = some e := Store.tree?_load _ _
  exact ⟨_, e, hstore, htree, hspans, Store.reparse_spans _ _ _ _ hstore e htree⟩

end ListQuery.Filter
