/-
What a filter costs. Costs of fields and functions are words of 32 bits, and each field that is read
and each call that is made has a leaf of the text for itself. So the cost of a filter is bounded by
the number of its leaves, and for texts of less than 2³² bytes no addition of 64 bits on the way to
it overflows (`Resolver.resolve_cost`).
-/
import ListQuery.Proofs.Parse.Leaves
import ListQuery.Proofs.Resolve.Mirror

namespace ListQuery.Filter

open Resolve
open Number (Word.maxNat32 Word.maxNat64)

theorem totalComplexity_eq (es : List Expr) : totalComplexity es = (es.map Expr.complexity).sum := by
  induction es with
  | nil => rfl
  | cons e es ih => rw [totalComplexity, ih, List.map_cons, List.sum_cons]

theorem entriesComplexity_eq (es : List (Expr × Expr)) :
    entriesComplexity es = (es.map fun p => p.1.complexity + p.2.complexity).sum := by
  induction es with
  | nil => rfl
  | cons p es ih => rw [entriesComplexity, ih, List.map_cons, List.sum_cons]

theorem fieldsComplexity_eq (fs : List (String × Expr)) :
    fieldsComplexity fs = (fs.map fun f => f.2.complexity).sum := by
  induction fs with
  | nil => rfl
  | cons f fs ih => rw [fieldsComplexity, ih, List.map_cons, List.sum_cons]

/-- The cost of reading a field or of making a call, arguments aside. -/
def Expr.ownCost : Expr → Nat
  | .field s => s.complexity
  | .call _ _ _ cost => cost
  | _ => 0

/-- The summed cost of what is read and called. -/
def readsCost (reads : List Expr) : Nat := (reads.map Expr.ownCost).sum

theorem readsCost_append (xs ys : List Expr) : readsCost (xs ++ ys) = readsCost xs + readsCost ys := by
  rw [readsCost, List.map_append, List.sum_append]
  rfl

mutual

/-- The cost of an expression is that of all fields that it reads and all calls that it makes. -/
theorem Expr.complexity_eq_reads : ∀ e : Expr, e.complexity = readsCost e.reads
  | .field s => (Nat.add_zero _).symm
  | .call _ _ args cost => congrArg (cost + ·) (totalComplexity_eq_reads args)
  | .value v => v.complexity_eq_reads
  | .compare left _ right => by
    rw [Expr.complexity, Expr.reads, readsCost_append, left.complexity_eq_reads,
      right.complexity_eq_reads]
  | .not item => item.complexity_eq_reads
  | .and items => totalComplexity_eq_reads items
  | .or items => totalComplexity_eq_reads items
  | .array items => totalComplexity_eq_reads items
  | .map entries => entriesComplexity_eq_reads entries

theorem Value.complexity_eq_reads : ∀ v : Value, v.complexity = readsCost v.reads
  | .message _ fields => fieldsComplexity_eq_reads fields
  | .null | .bool _ | .int64 _ | .uint64 _ | .float64 _ | .string _ | .bytes _ | .timestamp _
  | .duration _ | .enum _ => rfl

theorem totalComplexity_eq_reads : ∀ es, totalComplexity es = readsCost (itemReads es)
  | [] => rfl
  | e :: es => by
    rw [totalComplexity, itemReads, readsCost_append, e.complexity_eq_reads,
      totalComplexity_eq_reads es]

theorem entriesComplexity_eq_reads : ∀ es, entriesComplexity es = readsCost (entryReads es)
  | [] => rfl
  | (k, v) :: es => by
    rw [entriesComplexity, entryReads, readsCost_append, readsCost_append, k.complexity_eq_reads,
      v.complexity_eq_reads, entriesComplexity_eq_reads es]

theorem fieldsComplexity_eq_reads : ∀ fs, fieldsComplexity fs = readsCost (fieldReads fs)
  | [] => rfl
  | (_, v) :: fs => by
    rw [fieldsComplexity, fieldReads, readsCost_append, v.complexity_eq_reads,
      fieldsComplexity_eq_reads fs]

end

/-! ## Sums of 64 bits -/

/-- An addition of 64 bits, if it does not overflow. -/
def addWord? (a b : Nat) : Option Nat := if a + b ≤ Word.maxNat64 then some (a + b) else none

theorem addWord?_eq {a b : Nat} (h : a + b ≤ Word.maxNat64) : addWord? a b = some (a + b) := if_pos h

/-- The cost of steps, added from the last one on. -/
def wordSteps? : List SelectorStep → Option Nat
  | [] => some 0
  | .field f :: steps => (wordSteps? steps).bind (addWord? f.complexity)
  | .key _ _ :: steps => wordSteps? steps

mutual

/-- The cost of an expression with all additions of 64 bits, in the order in which they are made;
none if one of them overflows. Sums of lists are made from zero on. -/
def Expr.wordComplexity? : Expr → Option Nat
  | .field s => (wordSteps? s.steps).bind (addWord? s.head.complexity)
  | .call _ _ args cost => (wordTotal? 0 args).bind (addWord? cost)
  | .value v => v.wordComplexity?
  | .compare left _ right =>
    left.wordComplexity?.bind fun a => right.wordComplexity?.bind (addWord? a)
  | .not item => item.wordComplexity?
  | .and items => wordTotal? 0 items
  | .or items => wordTotal? 0 items
  | .array items => wordTotal? 0 items
  | .map entries => wordEntries? 0 entries

def Value.wordComplexity? : Value → Option Nat
  | .message _ fields => wordFields? 0 fields
  | _ => some 0

def wordTotal? (sum : Nat) : List Expr → Option Nat
  | [] => some sum
  | e :: es => e.wordComplexity?.bind fun a => (addWord? sum a).bind fun sum => wordTotal? sum es

def wordEntries? (sum : Nat) : List (Expr × Expr) → Option Nat
  | [] => some sum
  | (k, v) :: es =>
    k.wordComplexity?.bind fun a => v.wordComplexity?.bind fun b => (addWord? a b).bind fun c =>
      (addWord? sum c).bind fun sum => wordEntries? sum es

def wordFields? (sum : Nat) : List (String × Expr) → Option Nat
  | [] => some sum
  | (_, v) :: fs => v.wordComplexity?.bind fun a => (addWord? sum a).bind fun sum => wordFields? sum fs

end

theorem wordSteps?_eq : ∀ {steps : List SelectorStep}, Selector.stepsComplexity steps ≤ Word.maxNat64 →
    wordSteps? steps = some (Selector.stepsComplexity steps)
  | [], _ => rfl
  | .field f :: steps, h => by
    rw [Selector.stepsComplexity] at h
    rw [wordSteps?, wordSteps?_eq (by omega), Option.bind_some, addWord?_eq h]
    rfl
  | .key k kind :: steps, h => by
    rw [Selector.stepsComplexity] at h
    rw [wordSteps?, wordSteps?_eq h]
    rfl

mutual

/-- No addition overflows if the exact sum does not. -/
theorem Expr.wordComplexity?_eq : ∀ {e : Expr}, e.complexity ≤ Word.maxNat64 →
    e.wordComplexity? = some e.complexity
  | .field s, h => by
    rw [Expr.complexity, Selector.complexity] at h
    rw [Expr.wordComplexity?, wordSteps?_eq (by omega), Option.bind_some, addWord?_eq h]
    rfl
  | .call package name args cost, h => by
    rw [Expr.complexity] at h
    rw [Expr.wordComplexity?, wordTotal?_eq (by omega), Option.bind_some, Nat.zero_add,
      addWord?_eq h]
    rfl
  | .value v, h => v.wordComplexity?_eq h
  | .compare left c right, h => by
    rw [Expr.complexity] at h
    rw [Expr.wordComplexity?, left.wordComplexity?_eq (by omega), Option.bind_some,
      right.wordComplexity?_eq (by omega), Option.bind_some, addWord?_eq h]
    rfl
  | .not item, h => item.wordComplexity?_eq h
  | .and items, h => by
    rw [Expr.complexity] at h
    rw [Expr.wordComplexity?, wordTotal?_eq (by omega), Nat.zero_add]
    rfl
  | .or items, h => by
    rw [Expr.complexity] at h
    rw [Expr.wordComplexity?, wordTotal?_eq (by omega), Nat.zero_add]
    rfl
  | .array items, h => by
    rw [Expr.complexity] at h
    rw [Expr.wordComplexity?, wordTotal?_eq (by omega), Nat.zero_add]
    rfl
  | .map entries, h => by
    rw [Expr.complexity] at h
    rw [Expr.wordComplexity?, wordEntries?_eq (by omega), Nat.zero_add]
    rfl

theorem Value.wordComplexity?_eq : ∀ {v : Value}, v.complexity ≤ Word.maxNat64 →
    v.wordComplexity? = some v.complexity
  | .message name fields, h => by
    rw [Value.complexity] at h
    rw [Value.wordComplexity?, wordFields?_eq (by omega), Nat.zero_add]
    rfl
  | .null, _ | .bool _, _ | .int64 _, _ | .uint64 _, _ | .float64 _, _ | .string _, _ | .bytes _, _
  | .timestamp _, _ | .duration _, _ | .enum _, _ => rfl

theorem wordTotal?_eq : ∀ {es : List Expr} {sum : Nat}, sum + totalComplexity es ≤ Word.maxNat64 →
    wordTotal? sum es = some (sum + totalComplexity es)
  | [], _, _ => rfl
  | e :: es, sum, h => by
    rw [totalComplexity] at h
    rw [wordTotal?, e.wordComplexity?_eq (by omega), Option.bind_some, addWord?_eq (by omega),
      Option.bind_some, wordTotal?_eq (by omega), totalComplexity, Nat.add_assoc]

theorem wordEntries?_eq : ∀ {es : List (Expr × Expr)} {sum : Nat},
    sum + entriesComplexity es ≤ Word.maxNat64 →
      wordEntries? sum es = some (sum + entriesComplexity es)
  | [], _, _ => rfl
  | (k, v) :: es, sum, h => by
    rw [entriesComplexity] at h
    rw [wordEntries?, k.wordComplexity?_eq (by omega), Option.bind_some,
      v.wordComplexity?_eq (by omega), Option.bind_some, addWord?_eq (by omega), Option.bind_some,
      addWord?_eq (by omega), Option.bind_some, wordEntries?_eq (by omega), entriesComplexity,
      Nat.add_assoc]

theorem wordFields?_eq : ∀ {fs : List (String × Expr)} {sum : Nat},
    sum + fieldsComplexity fs ≤ Word.maxNat64 → wordFields? sum fs = some (sum + fieldsComplexity fs)
  | [], _, _ => rfl
  | (_, v) :: fs, sum, h => by
    rw [fieldsComplexity] at h
    rw [wordFields?, v.wordComplexity?_eq (by omega), Option.bind_some, addWord?_eq (by omega),
      Option.bind_some, wordFields?_eq (by omega), fieldsComplexity, Nat.add_assoc]

end

/-- Costs that are declared are words of 32 bits. -/
structure Resolver.Weighed (r : Resolver) : Prop where
  root : r.root ∈ r.schema.messages
  fields : ∀ m ∈ r.schema.messages, ∀ f ∈ m.fields, ∀ cost, f.complexity = some cost →
    cost ≤ Word.maxNat32
  functions : ∀ name s, r.options.function? name = some s → s.complexity ≤ Word.maxNat32

/-- A field that is named costs a word. -/
theorem Resolver.Weighed.cost_le {r : Resolver} (hw : r.Weighed) {m : Message}
    (hm : m ∈ r.schema.messages) {l : Leaf} {f : Field} (hf : l.Names m f) :
    (Place.field f).cost ≤ Word.maxNat32 := by
  rw [Place.cost]
  cases hcost : f.complexity with
  | none => decide
  | some cost => exact hw.fields m hm f (Message.mem_of_field? hf.field) cost hcost

/-- A walk costs a word for each segment. -/
theorem Walk.cost_le {r : Resolver} (hw : r.Weighed) {m : Message} {path : List Leaf}
    {places : List Place} (h : Walk r.schema m path places) (hm : m ∈ r.schema.messages) :
    (places.map Place.cost).sum ≤ Word.maxNat32 * path.length := by
  induction h with
  | last name =>
    have hcost := hw.cost_le hm name
    simp only [List.map_cons, List.map_nil, List.sum_cons, List.sum_nil, List.length_cons,
      List.length_nil]
    omega
  | into name _ message _ ih =>
    have hcost := hw.cost_le hm name
    have hrest := ih (Schema.mem_of_messageOf? message)
    simp only [List.map_cons, List.sum_cons, List.length_cons, Nat.mul_add]
    omega
  | key name =>
    have hcost := hw.cost_le hm name
    simp only [List.map_cons, List.map_nil, List.sum_cons, List.sum_nil, List.length_cons,
      List.length_nil, Place.cost_key]
    omega
  | entry name _ _ _ _ message _ ih =>
    have hcost := hw.cost_le hm name
    have hrest := ih (Schema.mem_of_messageOf? message)
    simp only [List.map_cons, List.sum_cons, List.length_cons, Place.cost_key, Nat.mul_add]
    omega

/-! ## Each cost has a leaf -/

/-- If all calls among nodes have names, the leaves pay for the expression. -/
def PaidBy (ns : List Node) (ls : List Leaf) (e : Expr) : Prop :=
  CallsNamed ns → e.complexity ≤ Word.maxNat32 * ls.length

/-- What is paid for piece by piece is paid for as a whole. -/
theorem sum_le_of_forall₂ {α β : Type} {cost : β → Nat} {f : α → List Node} {l : α → List Leaf}
    {as : List α} {bs : List β} (h : List.Forall₂ (fun a b => CallsNamed (f a) →
      cost b ≤ Word.maxNat32 * (l a).length) as bs) (hnamed : CallsNamed (as.flatMap f)) :
    (bs.map cost).sum ≤ Word.maxNat32 * (as.flatMap l).length := by
  induction h with
  | nil => exact Nat.zero_le _
  | cons hb _ ih =>
    rw [List.flatMap_cons] at hnamed
    obtain ⟨hhead, htail⟩ := callsNamed_append.1 hnamed
    have hhead := hb hhead
    have htail := ih htail
    rw [List.map_cons, List.sum_cons, List.flatMap_cons, List.length_append, Nat.mul_add]
    omega

theorem Arg.paidBy_of_mirrored {a : Arg} {e : Expr}
    (h : a.Mirrored (fun c => PaidBy c.nodes c.leaves) (fun x => PaidBy x.nodes x.leaves) e) :
    PaidBy a.nodes a.leaves e := by
  cases a with
  | composite c =>
    obtain ⟨span, x⟩ := c
    exact fun hnamed => h ((callsNamed_cons rfl).1 hnamed)
  | comparable c => exact h

/-- An entry has a leaf for its name besides. -/
theorem StructEntry.paidBy_of_value (entry : StructEntry) {e : Expr}
    (h : PaidBy entry.value.nodes entry.value.leaves e) : PaidBy entry.nodes entry.leaves e := by
  obtain ⟨name, value⟩ := entry
  intro hnamed
  refine (h hnamed).trans (Nat.mul_le_mul_left _ ?_)
  rw [StructEntry.leaves, List.length_cons]
  exact Nat.le_succ _

/-- A literal has leaves for its type name besides. -/
theorem le_of_leaves {span : Span} (typeName : List Leaf) (entries : List StructEntry) :
    Word.maxNat32 * (entries.flatMap StructEntry.leaves).length ≤
      Word.maxNat32 * (Comparable.struct ⟨span, typeName, entries⟩).leaves.length := by
  refine Nat.mul_le_mul_left _ ?_
  rw [Comparable.leaves, StructLiteral.leaves, entryLeaves_eq, List.length_append]
  exact Nat.le_add_left _ _

/-- A tree pays for what its operands pay for. -/
theorem paidBy_of_assembled {S : Simple → Expr → Prop}
    (hS : ∀ y e, S y e → PaidBy y.nodes y.leaves e) {x : Expression} {e : Expr}
    (h : x.Assembled S e) : PaidBy x.nodes x.leaves e := by
  intro hnamed
  obtain ⟨es, hes, hreads⟩ := h.gather (g := Expr.reads) (fun _ => rfl)
    (eq_flatMap_of_cons (f := itemReads) rfl fun _ _ => rfl)
    (eq_flatMap_of_cons (f := itemReads) rfl fun _ _ => rfl)
  have hsum : e.complexity = (es.map Expr.complexity).sum := by
    rw [e.complexity_eq_reads, hreads, ← totalComplexity_eq, totalComplexity_eq_reads]
    exact congrArg readsCost (eq_flatMap_of_cons (f := itemReads) rfl (fun _ _ => rfl) es).symm
  rw [hsum, x.leaves_eq]
  exact sum_le_of_forall₂ (hes.imp hS) hnamed.simples

/-- Every way to make a value pays for it with leaves of its own. -/
theorem mirror_paidBy {r : Resolver} (hw : r.Weighed) :
    Mirror (fun c => PaidBy c.nodes c.leaves) (fun x => PaidBy x.nodes x.leaves) r where
  scalar c v hv _ := by cases v <;> first | exact Nat.zero_le _ | cases hv
  field m x f places hwalk hfollows _ := by
    rw [Expr.complexity, hfollows.complexity]
    exact hwalk.cost_le hw hw.root
  call c s es hs hes hnamed := by
    obtain ⟨span, name, args⟩ := c
    rw [Comparable.nodes, Call.nodes, argNodes_eq] at hnamed
    obtain ⟨hname, hargs⟩ := callsNamed_cons_call.1 hnamed
    have htotal : (es.map Expr.complexity).sum ≤
        Word.maxNat32 * (args.flatMap Arg.leaves).length :=
      sum_le_of_forall₂ (hes.imp fun a e he => Arg.paidBy_of_mirrored he) hargs
    -- the first leaf of the name pays for the call itself
    have hcall : s.complexity ≤ Word.maxNat32 * name.length :=
      (hw.functions _ s hs).trans (Nat.le_mul_of_pos_right _ (List.length_pos_iff.2 hname))
    rw [Expr.complexity, totalComplexity_eq, Comparable.leaves, Call.leaves, argLeaves_eq,
      List.length_append, Nat.mul_add]
    exact Nat.add_le_add hcall htotal
  array a es hes hnamed := by
    obtain ⟨span, elements⟩ := a
    rw [Comparable.nodes, ArrayLiteral.nodes, elementNodes_eq] at hnamed
    rw [Expr.complexity, totalComplexity_eq, Comparable.leaves, ArrayLiteral.leaves,
      elementLeaves_eq]
    exact sum_le_of_forall₂ hes ((callsNamed_cons rfl).1 hnamed)
  message s name fields hfields _ hnamed := by
    obtain ⟨span, typeName, entries⟩ := s
    rw [Comparable.nodes, StructLiteral.nodes, entryNodes_eq] at hnamed
    have hsum : (fields.map fun f => f.2.complexity).sum ≤
        Word.maxNat32 * (entries.flatMap StructEntry.leaves).length :=
      sum_le_of_forall₂ (hfields.imp fun entry field h => entry.paidBy_of_value h.2)
        ((callsNamed_cons rfl).1 hnamed)
    rw [Expr.complexity, Value.complexity, fieldsComplexity_eq]
    exact hsum.trans (le_of_leaves typeName entries)
  map s key pairs hpairs _ hnamed := by
    obtain ⟨span, typeName, entries⟩ := s
    rw [Comparable.nodes, StructLiteral.nodes, entryNodes_eq] at hnamed
    have hsum : (pairs.map fun p => p.1.complexity + p.2.complexity).sum ≤
        Word.maxNat32 * (entries.flatMap StructEntry.leaves).length := by
      refine sum_le_of_forall₂ (hpairs.imp ?_) ((callsNamed_cons rfl).1 hnamed)
      rintro entry pair ⟨k, -, hpair, h⟩ hentry
      have hkey : pair.1.complexity = 0 := by
        rw [hpair]
        cases k <;> rfl
      rw [hkey, Nat.zero_add]
      exact entry.paidBy_of_value h hentry
    rw [Expr.complexity, entriesComplexity_eq]
    exact hsum.trans (le_of_leaves typeName entries)
  group x e h := by
    refine paidBy_of_assembled (fun y e hy => ?_) h
    cases y with
    | composite c =>
      obtain ⟨span, x⟩ := c
      exact fun hnamed => hy ((callsNamed_cons rfl).1 hnamed)
    | restriction z =>
      obtain ⟨span, c, comparison⟩ := z
      obtain ⟨rfl, hz⟩ := hy
      exact fun hnamed => hz ((callsNamed_cons rfl).1 hnamed)

theorem Simple.paidBy_of_resolved {y : Simple} {e : Expr}
    (h : y.Resolved (fun c => PaidBy c.nodes c.leaves) (fun x => PaidBy x.nodes x.leaves)
      (fun x => PaidBy x.nodes x.leaves) e) : PaidBy y.nodes y.leaves e := by
  intro hnamed
  cases y with
  | composite c =>
    obtain ⟨span, x⟩ := c
    exact h ((callsNamed_cons rfl).1 hnamed)
  | restriction z =>
    obtain ⟨span, c, comparison⟩ := z
    cases comparison with
    | none => exact h ((callsNamed_cons rfl).1 hnamed)
    | some comparison =>
      obtain ⟨comparator, pos, arg⟩ := comparison
      obtain ⟨left, right, rfl, hleft, hright⟩ := h
      obtain ⟨hc, harg⟩ := callsNamed_append.1 ((callsNamed_cons rfl).1 hnamed)
      have hleft := hleft hc
      have hright := Arg.paidBy_of_mirrored hright harg
      rw [Expr.complexity]
      change _ ≤ Word.maxNat32 * (c.leaves ++ arg.leaves).length
      rw [List.length_append, Nat.mul_add]
      exact Nat.add_le_add hleft hright

/-- The cost of a filter that has been read is at most the largest word of 32 bits for each leaf. It
is the sum of what the filter reads and calls, and for a text of less than 2³² bytes the additions
of 64 bits give this sum. -/
theorem Resolver.resolve_cost {r : Resolver} (hhooks : r.options.HookFree) (hw : r.Weighed)
    {before store : Store} {o : ParserOptions} {input : String}
    (hparse : before.reparse o input = .ok store) {filter : ResolvedFilter}
    {reports : List (Report ValueCause)} (h : (r.resolve store).run = (.ok filter, reports)) :
    filter.complexity ≤ Word.maxNat32 * store.leaves.length ∧
    ∀ e, filter.expr = some e → filter.complexity = (e.reads.map Expr.ownCost).sum ∧
      (input.utf8ByteSize < 2 ^ 32 → e.wordComplexity? = some filter.complexity) := by
  have hassembled (x : Expression) (e : Expr) := paidBy_of_assembled (x := x) (e := e)
    fun y e hy => Simple.paidBy_of_resolved hy
  obtain ⟨-, rfl⟩ | ⟨tree, e, htext, htree, rfl, hpaid⟩ :=
    (mirror_paidBy hw).resolve hassembled hhooks hparse h
  · exact ⟨Nat.zero_le _, nofun⟩
  have hpaid := hpaid (parse_callsNamed htext)
  refine ⟨?_, ?_⟩
  · rw [Store.leaves, htree]
    exact hpaid
  · rintro e' ⟨⟩
    refine ⟨e.complexity_eq_reads, fun hbytes => Expr.wordComplexity?_eq (hpaid.trans ?_)⟩
    have hlength := (length_leaves_le htext).trans (Nat.le_of_lt hbytes)
    exact (Nat.mul_le_mul_left _ hlength).trans (by decide)

/-- Essays whose body costs as much as a field can. -/
def essay : Message :=
  ⟨"test.Essay", [{ name := "title", kind := .string },
    { name := "body", kind := .string, complexity := some Word.maxNat32 }]⟩

/-- Filters of essays, with a function over texts. -/
def essayResolver : Resolver where
  schema := ⟨(Schema.wellKnownMessages ++ [essay]).map Schema.numbered, []⟩
  root := Schema.numbered essay
  options := ResolverOptions.withFunction { allowIndirect := true }
    { name := "score", parameters := [Signature.scalar "text" .string false]
      result := some (Signature.scalar "result" .int64 false), complexity := 5 }

theorem essayResolver_weighed : essayResolver.Weighed where
  root := List.mem_map_of_mem (List.mem_append_right _ List.mem_cons_self)
  fields := by
    have h : ∀ m ∈ essayResolver.schema.messages, ∀ f ∈ m.fields,
        f.complexity.getD 0 ≤ Word.maxNat32 := by decide
    intro m hm f hf cost hcost
    have hle := h m hm f hf
    rwa [hcost, Option.getD_some] at hle
  functions name s hs := by
    rw [ResolverOptions.function?, essayResolver, ResolverOptions.withFunction,
      lookup?_register] at hs
    split at hs
    · cases hs
      decide
    · cases hs

/-- Three reads of the costly field, one of the other and a call, which is more than 32 bits hold. -/
theorem costly_reads : ∃ store filter reports e,
    Store.empty.reparse .allExtensions "score(body) = 3 AND (title = body OR NOT body = a)" =
      .ok store ∧
    (essayResolver.resolve store).run = (.ok filter, reports) ∧ filter.expr = some e ∧
    store.leaves.length = 7 ∧ filter.complexity = 12884901891 ∧
    filter.complexity ≤ Word.maxNat32 * store.leaves.length ∧
    filter.complexity = (e.reads.map Expr.ownCost).sum ∧
    e.wordComplexity? = some filter.complexity := by
  obtain ⟨store, hstore, hany⟩ := exists_of_any (Store.empty.reparse .allExtensions
      "score(body) = 3 AND (title = body OR NOT body = a)")
    (fun store => store.leaves.length == 7 &&
      (essayResolver.resolve store).run.1.toOption.any fun filter =>
        filter.complexity == 12884901891 && filter.expr.isSome) (by decide +kernel)
  obtain ⟨hleaves, hany⟩ := Bool.and_eq_true_iff.1 hany
  cases hrun : (essayResolver.resolve store).run with
  | mk outcome reports =>
    rw [hrun] at hany
    obtain ⟨filter, rfl, hfilter⟩ := exists_of_any outcome _ hany
    obtain ⟨hcost, hsome⟩ := Bool.and_eq_true_iff.1 hfilter
    obtain ⟨e, he⟩ := Option.isSome_iff_exists.1 hsome
    obtain ⟨hle, hexact⟩ :=
      Resolver.resolve_cost ⟨rfl, rfl⟩ essayResolver_weighed hstore hrun
    obtain ⟨hsum, hword⟩ := hexact e he
    exact ⟨store, filter, reports, e, hstore, hrun, he, eq_of_beq hleaves, eq_of_beq hcost, hle,
      hsum, hword (by decide)⟩

end ListQuery.Filter
