/-
The leaves of trees that are read. A text has a byte for each of them (`length_leaves_le`), and every
call has one, since it has a name (`parse_callsNamed`). For this the productions are followed
without the tokens that they take: only their values count (`Parser.Returns`).
-/
import Mathlib.Data.List.Flatten
import ListQuery.Proofs.Parse.Takes
import ListQuery.Proofs.Tree.Operands

namespace ListQuery.Filter

/-- The call that a node is. -/
def Node.call? : Node → Option Call
  | .comparable (.call c) => some c
  | _ => none

/-- Every call among nodes has a name. -/
def CallsNamed (ns : List Node) : Prop := ∀ c ∈ ns.filterMap Node.call?, c.name ≠ []

theorem callsNamed_append {ns ms : List Node} :
    CallsNamed (ns ++ ms) ↔ CallsNamed ns ∧ CallsNamed ms := by
  rw [CallsNamed, List.filterMap_append]
  exact List.forall_mem_append

theorem callsNamed_flatMap {α : Type} {f : α → List Node} {as : List α} :
    CallsNamed (as.flatMap f) ↔ ∀ a ∈ as, CallsNamed (f a) := by
  rw [CallsNamed, List.filterMap_flatMap]
  exact List.forall_mem_flatMap

theorem callsNamed_cons_call {c : Call} {ns : List Node} :
    CallsNamed (.comparable (.call c) :: ns) ↔ c.name ≠ [] ∧ CallsNamed ns :=
  List.forall_mem_cons

theorem callsNamed_cons {n : Node} (hn : n.call? = none) {ns : List Node} :
    CallsNamed (n :: ns) ↔ CallsNamed ns := by
  rw [CallsNamed, List.filterMap_cons_none hn]
  rfl

/-- The calls of a tree are in its operands. -/
theorem CallsNamed.simples {x : Expression} (h : CallsNamed x.nodes) :
    CallsNamed (x.simples.flatMap Simple.nodes) := by
  rw [CallsNamed, List.filterMap_flatMap, ← x.filterMap_nodes Node.call? (fun _ => rfl)
    (fun _ => rfl) (fun _ => rfl) fun _ => rfl]
  exact h

namespace Parser

variable {α β : Type} {o : ParserOptions} {P : β → Prop} {Q : α → Prop}

/-- All values of a parser have a property. -/
def Returns (p : Parser α) (Q : α → Prop) : Prop := ∀ s a s', p s = .ok a s' → Q a

theorem Returns.bind {p : Parser β} {f : β → Parser α} (hp : Returns p P)
    (hf : ∀ b, P b → Returns (f b) Q) : Returns (p >>= f) Q := by
  intro s a s' h
  obtain ⟨b, s₁, hb, ha⟩ := bind_ok.1 h
  exact hf b (hp s b s₁ hb) s₁ a s' ha

/-- The value of a step does not count. -/
theorem Returns.after (p : Parser β) {f : β → Parser α} (hf : ∀ b, Returns (f b) Q) :
    Returns (p >>= f) Q :=
  Returns.bind (P := fun _ => True) (fun _ _ _ _ => trivial) fun b _ => hf b

theorem returns_pure {a : α} (h : Q a) : Returns (pure a) Q := by
  intro s b s' hb
  obtain ⟨rfl, -⟩ := pure_ok.1 hb
  exact h

theorem returns_unexpected (t : Token) (what : String) : Returns (unexpected t what) Q :=
  fun _ _ _ h => absurd h unexpected_ok

theorem returns_ite {c : Prop} [Decidable c] {p q : Parser α} (hp : c → Returns p Q)
    (hq : ¬c → Returns q Q) : Returns (if c then p else q) Q := by
  split
  · exact hp ‹_›
  · exact hq ‹_›

theorem returns_many {step : Parser (Option α)} (h : Returns step fun x => ∀ a ∈ x, Q a) :
    Returns (many step) fun as => ∀ a ∈ as, Q a := by
  have run (fuel : Nat) : Returns (repeatStep step fuel) fun as => ∀ a ∈ as, Q a := by
    induction fuel with
    | zero => exact returns_pure (by simp)
    | succ fuel ih =>
      refine h.bind fun x hx => ?_
      cases x with
      | none => exact returns_pure (by simp)
      | some a =>
        refine ih.bind fun as has => returns_pure ?_
        exact List.forall_mem_cons.2 ⟨hx a rfl, has⟩
  exact fun s => run _ s

theorem returns_delimited {b : Brackets} {item : Parser α} (h : Returns item Q) :
    Returns (delimited o b item) fun as => ∀ a ∈ as, Q a := by
  have run (fuel : Nat) : Returns (itemsFrom o b item fuel) fun as => ∀ a ∈ as, Q a := by
    induction fuel with
    | zero => exact returns_pure (by simp)
    | succ fuel ih =>
      refine h.bind fun a ha => .after _ fun _ => .after _ fun t => ?_
      refine returns_ite (fun _ => .after _ fun _ => ih.bind fun as has => returns_pure ?_) fun _ =>
        returns_ite (fun _ => returns_pure ?_) fun _ => returns_unexpected t b.expected
      · exact List.forall_mem_cons.2 ⟨ha, has⟩
      · simpa using ha
  refine .after _ fun _ => .after _ fun t => ?_
  cases t with
  | some t => exact returns_pure (by simp)
  | none => exact fun s => run _ s

/-! ## Productions -/

/-- The productions one level of nesting down name their calls. -/
structure Inner.Names (inner : Inner) : Prop where
  expression : Returns inner.expression fun e => CallsNamed e.nodes
  comparable : Returns inner.comparable fun c => CallsNamed c.nodes

section Productions

variable {inner : Inner} (hi : inner.Names)

include hi

theorem composite_named : Returns (composite inner) fun c => CallsNamed c.nodes := by
  refine .after _ fun _ => .after _ fun _ => hi.expression.bind fun e he => ?_
  refine .after _ fun _ => .after _ fun _ => .after _ fun span => returns_pure ?_
  exact (callsNamed_cons (by rfl)).2 he

theorem arg_named : Returns (arg inner) fun a => CallsNamed a.nodes := by
  refine .after _ fun _ => returns_ite (fun _ => ?_) fun _ => ?_
  · exact (composite_named hi).bind fun c hc => returns_pure hc
  · exact hi.comparable.bind fun c hc => returns_pure hc

theorem call_named {name : List Leaf} (hname : name ≠ []) (start : Position) :
    Returns (call o inner name start) fun c => CallsNamed (Comparable.call c).nodes := by
  refine .after _ fun _ => (returns_delimited (arg_named hi)).bind fun args hargs => ?_
  refine .after _ fun span => returns_pure (callsNamed_cons_call.2 ⟨hname, ?_⟩)
  rw [Call.nodes, argNodes_eq]
  exact callsNamed_flatMap.2 hargs

theorem arrayLiteral_named :
    Returns (arrayLiteral o inner) fun a => CallsNamed (Comparable.array a).nodes := by
  refine .after _ fun _ => (returns_delimited hi.comparable).bind fun elements helements => ?_
  refine .after _ fun span => returns_pure ((callsNamed_cons (by rfl)).2 ?_)
  rw [ArrayLiteral.nodes, elementNodes_eq]
  exact callsNamed_flatMap.2 helements

theorem structEntry_named : Returns (structEntry o inner) fun e => CallsNamed e.nodes :=
  .after _ fun _ => .after _ fun _ => .after _ fun _ => .after _ fun _ => .after _ fun _ =>
    hi.comparable.bind fun _ hvalue => returns_pure hvalue

theorem structLiteral_named (name : List Leaf) (start : Position) :
    Returns (structLiteral o inner name start) fun s => CallsNamed (Comparable.struct s).nodes := by
  refine .after _ fun _ => (returns_delimited (structEntry_named hi)).bind fun entries hentries => ?_
  refine .after _ fun span => returns_pure ((callsNamed_cons (by rfl)).2 ?_)
  rw [StructLiteral.nodes, entryNodes_eq]
  exact callsNamed_flatMap.2 hentries

omit hi in
theorem member_named (m : Member) : CallsNamed (Comparable.member m).nodes :=
  (callsNamed_cons (by rfl)).2 fun _ h => absurd h List.not_mem_nil

theorem nameRun_named : Returns (nameRun o inner) fun c => CallsNamed c.nodes := by
  refine .after _ fun first => .after _ fun value => .after _ fun fields => .after _ fun k => ?_
  have hmember : Returns (do return .member ⟨← spanFrom first.pos, value, fields⟩)
      fun c : Comparable => CallsNamed c.nodes :=
    .after _ fun span => returns_pure (member_named _)
  split
  · exact .after _ fun _ =>
      (call_named hi (List.cons_ne_nil _ _) _).bind fun c hc => returns_pure hc
  · refine returns_ite (fun _ => ?_) fun _ => hmember
    exact .after _ fun _ => (structLiteral_named hi _ _).bind fun s hs => returns_pure hs
  · exact hmember

theorem comparableBody_named : Returns (comparableBody o inner) fun c => CallsNamed c.nodes := by
  refine .after _ fun t => returns_ite (fun _ => ?_) fun _ => returns_ite (fun _ => ?_) fun _ =>
    returns_ite (fun _ => nameRun_named hi) fun _ => .after _ fun _ => returns_unexpected t _
  · exact (arrayLiteral_named hi).bind fun a ha => returns_pure ha
  · exact (structLiteral_named hi _ _).bind fun s hs => returns_pure hs

theorem restriction_named : Returns (restriction o inner) fun x => CallsNamed x.nodes := by
  refine .after _ fun start => hi.comparable.bind fun c hc => .after _ fun saved => ?_
  refine .after _ fun _ => .after _ fun t => .after _ fun comparator => ?_
  split
  · refine .after _ fun _ => .after _ fun _ => (arg_named hi).bind fun a ha => ?_
    refine .after _ fun span => returns_pure ((callsNamed_cons (by rfl)).2 ?_)
    exact callsNamed_append.2 ⟨hc, ha⟩
  · exact .after _ fun _ => .after _ fun span => returns_pure ((callsNamed_cons (by rfl)).2 hc)

theorem simple_named : Returns (simple o inner) fun x => CallsNamed x.nodes := by
  refine .after _ fun _ => returns_ite (fun _ => ?_) fun _ => ?_
  · exact (composite_named hi).bind fun c hc => returns_pure hc
  · exact (restriction_named hi).bind fun x hx => returns_pure hx

theorem term_named : Returns (term o inner) fun t => CallsNamed t.nodes := by
  refine .after _ fun _ => .after _ fun _ => (simple_named hi).bind fun x hx => ?_
  exact .after _ fun span => returns_pure ((callsNamed_cons (by rfl)).2 hx)

theorem orTerm_named : Returns (orTerm o inner) fun x => ∀ y ∈ x, CallsNamed y.2.nodes := by
  refine .after _ fun pos => ?_
  cases pos with
  | none => exact returns_pure nofun
  | some pos =>
    refine (term_named hi).bind fun t ht => returns_pure ?_
    rintro y ⟨⟩
    exact ht

omit hi in
/-- The position of the `OR` behind a term plays no part. -/
theorem linkTerms_named {first : Term} {others : List (Position × Term)}
    (hfirst : CallsNamed first.nodes) (hothers : ∀ x ∈ others, CallsNamed x.2.nodes) :
    ∀ t ∈ linkTerms first others, CallsNamed t.nodes := by
  induction others generalizing first with
  | nil => simpa [linkTerms] using hfirst
  | cons x others ih =>
    obtain ⟨pos, t⟩ := x
    obtain ⟨ht, hothers⟩ := List.forall_mem_cons.1 hothers
    rw [linkTerms]
    refine List.forall_mem_cons.2 ⟨?_, ih ht hothers⟩
    obtain ⟨span, unary, simple, orPos⟩ := first
    exact (callsNamed_cons (by rfl)).2 ((callsNamed_cons (by rfl)).1 hfirst)

theorem factor_named : Returns (factor o inner) fun f => CallsNamed f.nodes := by
  refine .after _ fun _ => (term_named hi).bind fun first hfirst => ?_
  refine (returns_many (orTerm_named hi)).bind fun others hothers => .after _ fun span => ?_
  refine returns_pure ((callsNamed_cons (by rfl)).2 ?_)
  rw [termNodes_eq]
  exact callsNamed_flatMap.2 (linkTerms_named hfirst hothers)

theorem nextFactor_named : Returns (nextFactor o inner) fun x => ∀ f ∈ x, CallsNamed f.nodes := by
  refine .after _ fun saved => .after _ fun blank => ?_
  cases blank with
  | none => exact returns_pure nofun
  | some blank =>
    refine .after _ fun starts => returns_ite (fun _ => ?_) fun _ => .after _ fun _ => returns_pure nofun
    refine .after _ fun _ => (factor_named hi).bind fun f hf => returns_pure ?_
    rintro y ⟨⟩
    exact hf

theorem sequence_named : Returns (sequence o inner) fun x => CallsNamed x.nodes := by
  refine .after _ fun _ => (factor_named hi).bind fun first hfirst => ?_
  refine (returns_many (nextFactor_named hi)).bind fun others hothers => .after _ fun span => ?_
  refine returns_pure ((callsNamed_cons (by rfl)).2 ?_)
  rw [factorNodes_eq]
  exact callsNamed_flatMap.2 (List.forall_mem_cons.2 ⟨hfirst, hothers⟩)

theorem andSequence_named : Returns (andSequence o inner) fun x => ∀ y ∈ x, CallsNamed y.nodes := by
  refine .after _ fun pos => ?_
  cases pos with
  | none => exact returns_pure nofun
  | some pos =>
    refine (sequence_named hi).bind fun x hx => returns_pure ?_
    rintro y ⟨⟩
    exact hx

theorem expressionBody_named : Returns (expressionBody o inner) fun e => CallsNamed e.nodes := by
  refine .after _ fun _ => (sequence_named hi).bind fun first hfirst => ?_
  refine (returns_many (andSequence_named hi)).bind fun others hothers => .after _ fun span => ?_
  refine returns_pure ((callsNamed_cons (by rfl)).2 ?_)
  rw [sequenceNodes_eq]
  exact callsNamed_flatMap.2 (List.forall_mem_cons.2 ⟨hfirst, hothers⟩)

end Productions

theorem innerAt_names (o : ParserOptions) : ∀ levels, (innerAt o levels).Names
  | 0 => ⟨fun _ _ _ h => absurd h tooDeep_ok, fun _ _ _ h => absurd h tooDeep_ok⟩
  | levels + 1 =>
    have hi := innerAt_names o levels
    ⟨fun s => expressionBody_named hi s, fun s => comparableBody_named hi s⟩

end Parser

/-- Every call of a filter that has been read has a name. -/
theorem parse_callsNamed {o : ParserOptions} {input : String} {e : Expression}
    (h : parse o input = .ok (some e)) : CallsNamed e.nodes := by
  obtain ⟨s', h⟩ := parse_ok.1 h
  obtain ⟨s₁, s₂, -, -, he, -⟩ := Parser.filter_ok h
  exact (Parser.innerAt_names o o.maxDepth).expression s₁ e s₂ he

theorem length_le_utf8ByteSize (cs : List Char) : cs.length ≤ (String.ofList cs).utf8ByteSize := by
  induction cs with
  | nil => exact Nat.zero_le _
  | cons c cs ih =>
    have hpos := c.utf8Size_pos
    rw [Position.utf8ByteSize_cons, List.length_cons]
    omega

/-- Tokens with text are no more than the characters of them. -/
theorem length_le_chars {ts : List Token} (h : ∀ t ∈ ts, ∃ r, t.piece.Lexes r) :
    ts.length ≤ (Token.chars ts).length := by
  induction ts with
  | nil => exact Nat.zero_le _
  | cons t ts ih =>
    obtain ⟨ht, hts⟩ := List.forall_mem_cons.1 h
    obtain ⟨r, c, cs, htext, -⟩ := ht
    have htext : t.text.toList.length = cs.length + 1 := congrArg List.length htext
    have ih := ih hts
    rw [Token.chars, List.flatMap_cons, List.length_append, List.length_cons, htext]
    rw [Token.chars] at ih
    omega

/-- Each leaf of a filter that has been read takes a byte of the text. -/
theorem length_leaves_le {o : ParserOptions} {input : String} {e : Expression}
    (h : parse o input = .ok (some e)) : e.leaves.length ≤ input.utf8ByteSize := by
  have hsub := leaves_sublist_of_fits (parse_fits h)
  rw [Option.elim_some, Expression.leavesOf_yield] at hsub
  calc e.leaves.length
    _ ≤ (solidTokens input).length := by simpa using hsub.length_le
    _ ≤ (Token.chars (solidTokens input)).length := length_le_chars lexes_of_mem_solidTokens
    _ ≤ (Token.chars (tokenize input)).length :=
      (List.filter_sublist.flatMap fun t : Token => t.text.toList).length_le
    _ = input.toList.length := by rw [chars_tokens]
    _ ≤ input.utf8ByteSize := by
      have hbytes := length_le_utf8ByteSize input.toList
      rwa [String.ofList_toList] at hbytes

end ListQuery.Filter
