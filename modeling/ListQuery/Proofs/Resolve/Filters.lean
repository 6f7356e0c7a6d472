/-
Whole filters. What stands on the right of a comparison is a value of the field on the left, and
reads no field and makes no call where that is not allowed. A filter that has been read fails to
resolve only with a value error that is reported once.
-/
import ListQuery.Proofs.Parse.Loading
import ListQuery.Proofs.Resolve.Balance
import ListQuery.Proofs.Resolve.Literals
import ListQuery.Proofs.Store.Load

namespace ListQuery.Filter

open Resolve

theorem lookup?_register {α : Type} (name other : String) (a : α) (table : List (String × α)) :
    lookup? name (register other a table) =
      if other = name then some a else lookup? name table := by
  unfold lookup? register
  by_cases h : other = name
  · simp [h]
  · have hsame (e : String × α) :
        decide ((e.1 != other) = true ∧ (e.1 == name) = true) = (e.1 == name) := by
      by_cases he : e.1 = name
      · simp [he, Ne.symm h]
      · simp [he]
    rw [List.find?_cons_of_neg (by simp [h]), List.find?_filter, funext hsame, if_neg h]

/-- Every function is known by its name with its package, as registration has it. -/
def ResolverOptions.Registered (o : ResolverOptions) : Prop :=
  ∀ name s, o.function? name = some s → name = s.qualifiedName

theorem ResolverOptions.registered_of_functions_eq_nil {o : ResolverOptions}
    (h : o.functions = []) : o.Registered := by
  intro name s hs
  rw [function?, h] at hs
  cases hs

theorem ResolverOptions.Registered.withFunction {o : ResolverOptions} (h : o.Registered)
    (s : Signature) : (o.withFunction s).Registered := by
  intro name t ht
  rw [function?, ResolverOptions.withFunction, lookup?_register] at ht
  split at ht
  · rename_i hname
    cases ht
    exact hname.symm
  · exact h name t ht

namespace Resolver

variable {faults : Prop} {r : Resolver}

/-! ## Comparisons -/

/-- A comparison whose right side is a value of what stands on the left. -/
def Fits (r : Resolver) (x : Expr × Comparator × Expr) : Prop :=
  ∃ f, r.operand? x.1 x.2.1 = some f ∧ x.2.2.wellTyped r.schema f = true

/-- An expression all of whose comparisons fit, as long as functions go by their names. -/
def AllFit (r : Resolver) (e : Expr) : Prop :=
  r.options.Registered → ∀ x ∈ e.comparisons, r.Fits x

/-- A comparison as resolution makes it: the right side fits, as long as functions go by their
names, and reads nothing where that is not allowed. -/
structure Compares (r : Resolver) (x : Expr × Comparator × Expr) : Prop where
  fits : r.options.Registered → r.Fits x
  direct : r.options.allowIndirect = false → x.2.2.reads = []

/-- An expression all of whose comparisons are as resolution makes them. -/
def AllCompare (r : Resolver) (e : Expr) : Prop := ∀ x ∈ e.comparisons, r.Compares x

theorem allCompare_of_comparisons {e : Expr} (h : e.comparisons = []) : r.AllCompare e := by
  intro x hx
  rw [h] at hx
  cases hx

theorem allCompare_items {es : List Expr} (h : ∀ e ∈ es, r.AllCompare e) :
    ∀ x ∈ itemComparisons es, r.Compares x := by
  intro x hx
  rw [itemComparisons_eq, List.mem_flatMap] at hx
  obtain ⟨e, he, hx⟩ := hx
  exact h e he x hx

theorem allCompare_conjunction {es : List Expr} (h : ∀ e ∈ es, r.AllCompare e) :
    r.AllCompare (.conjunction es) := by
  rw [AllCompare, Expr.comparisons_conjunction]
  exact allCompare_items h

theorem allCompare_disjunction {es : List Expr} (h : ∀ e ∈ es, r.AllCompare e) :
    r.AllCompare (.disjunction es) := by
  rw [AllCompare, Expr.comparisons_disjunction]
  exact allCompare_items h

theorem alone_meets (h : r.Ready faults) (levels : Nat) (c : Comparable) :
    Meets faults (r.alone levels c) r.AllCompare := by
  cases c with
  | member m =>
    refine meets_ite (fun _ => ?_) fun _ => meets_pure (allCompare_of_comparisons rfl)
    exact (selectRoot_meets h levels m).bind fun x _ => meets_pure (allCompare_of_comparisons rfl)
  | call c =>
    refine (call_meets h (innerAt_meets h levels) c none).mono fun e he => ?_
    obtain ⟨s, -, hs⟩ := he
    exact allCompare_of_comparisons hs.comparisons
  | struct s => exact meets_fail _ _
  | array a => exact meets_fail _ _

/-- A registered function is found by the package and the name that its calls carry. -/
theorem target?_call {name : String} {s : Signature} (hr : r.options.Registered)
    (hs : r.options.function? name = some s) {e : Expr} (he : s.Calls e) :
    r.target? e = s.result := by
  obtain ⟨args, rfl, -⟩ := he
  have hname : Signature.qualifiedName { package := s.package, name := s.name } = name :=
    (hr name s hs).symm
  rw [target?, hname, hs, Option.bind_some]

theorem leftSide_meets (h : r.Ready faults) (levels : Nat) (c : Comparable) :
    Meets faults (r.leftSide levels c) fun x => x.1.comparisons = [] ∧
      (r.options.Registered → r.target? x.1 = some x.2) ∧ (¬faults → r.schema.Sound x.2) := by
  cases c with
  | member m =>
    exact (selectRoot_meets h levels m).bind fun x hx => meets_pure ⟨rfl, fun _ => hx.1, hx.2⟩
  | call c =>
    unfold leftSide
    dsimp only
    split
    · exact meets_fail _ _
    · rename_i result hresult
      obtain ⟨s, hs, hresult⟩ := Option.bind_eq_some_iff.1 hresult
      refine (call_meets h (innerAt_meets h levels) c none).bind fun e he => ?_
      obtain ⟨s', hs', he⟩ := he
      cases hs.symm.trans hs'
      refine meets_pure ⟨he.comparisons, fun hr => ?_, fun hfault => ?_⟩
      · rw [target?_call hr hs he, hresult]
      · exact (h.sound hfault).functions _ s hs result (.inr hresult)
  | struct s => exact meets_fail _ _
  | array a => exact meets_fail _ _

theorem namesRepeated_meets (h : r.Ready faults) (levels : Nat) (arg : Arg) :
    Meets faults (r.namesRepeated levels arg) fun _ => True := by
  unfold namesRepeated
  split
  · exact (selectRoot_meets h levels _).bind fun _ _ => meets_pure trivial
  · exact meets_pure trivial

theorem rightSide_meets (h : r.Ready faults) (levels : Nat) {target : Field}
    (hf : ¬faults → r.schema.Sound target) (c : Comparison) :
    Meets faults (r.rightSide levels target c) fun e =>
      ∃ f, (if c.comparator = .has ∧ target.isMap = true then target.mapKey else some target) =
        some f ∧ Typed r.schema f ⟨r.options.allowIndirect, false⟩ e := by
  have hi := innerAt_meets h levels
  unfold rightSide
  dsimp only
  split
  · rename_i hc
    refine meets_ite (fun hmap => ?_) fun hmap => ?_
    · split
      · rename_i hkey
        exact meets_throw (fun hfault => (hf hfault).mapKey_ne_none hmap hkey) _
      · rename_i key hkey
        refine (argValue_meets hi (fun hfault => (hf hfault).of_mapKey hmap hkey) rfl c.arg).mono
          fun e he => ⟨key, ?_, he⟩
        rw [if_pos ⟨hc, hmap⟩, hkey]
    · refine (argValue_meets hi hf rfl c.arg).mono fun e he => ⟨target, ?_, he⟩
      rw [if_neg fun hboth => hmap hboth.2]
  · rename_i hc
    refine (argValue_meets hi hf rfl c.arg).bind fun e he => ?_
    have haccept (accepted : Bool) (_ : True) : Meets faults
        (if accepted = true then pure e else Resolve.fail c.pos .needsArray) fun e =>
          ∃ f, (if c.comparator = .has ∧ target.isMap = true then target.mapKey else some target) =
            some f ∧ Typed r.schema f ⟨r.options.allowIndirect, false⟩ e := by
      refine meets_ite (fun _ => meets_pure ⟨target, ?_, he⟩) fun _ => meets_fail _ _
      rw [if_neg (by simp [hc])]
    split
    · exact (meets_pure trivial).bind haccept
    · exact (meets_pure trivial).bind haccept
    · exact (namesRepeated_meets h levels c.arg).bind haccept
    · exact (meets_pure trivial).bind haccept
  · rename_i hc _
    refine (argValue_meets hi hf rfl c.arg).mono fun e he => ⟨target, ?_, he⟩
    rw [if_neg fun hboth => hc hboth.1]

/-- Without hooks every comparison is resolved as it stands. -/
theorem hooked_eq_none (h : r.options.HookFree) (x : Restriction) (c : Comparison) (left : Expr)
    (target : Field) : r.hooked x c left target = pure none := by
  unfold hooked
  rw [h.fieldHooks]
  split <;> rfl

theorem restriction_meets (h : r.Ready faults) (levels : Nat) (x : Restriction) :
    Meets faults (r.restriction levels x) r.AllCompare := by
  unfold restriction
  split
  · exact alone_meets h levels _
  · rename_i c _
    refine (leftSide_meets h levels x.comparable).bind fun y hy => ?_
    obtain ⟨hleft, htarget, hsound⟩ := hy
    dsimp only
    rw [hooked_eq_none h.hooks, pure_bind]
    refine (rightSide_meets h levels hsound c).bind fun right hright => meets_pure ?_
    obtain ⟨f, hf, hright⟩ := hright
    intro z hz
    -- neither side holds comparisons of its own, so there is just this one
    rw [Expr.comparisons, hleft, hright.comparisons, List.append_nil, List.mem_singleton] at hz
    subst hz
    refine ⟨fun hr => ⟨f, ?_, hright.wellTyped⟩, hright.direct⟩
    rw [operand?, htarget hr, Option.bind_some]
    exact hf

theorem expressionBody_meets (h : r.Ready faults) (levels : Nat)
    {inner : Expression → Resolve Expr} (hi : ∀ e, Meets faults (inner e) r.AllCompare)
    (e : Expression) : Meets faults (r.expressionBody levels inner e) r.AllCompare := by
  unfold expressionBody
  refine Meets.map _ (meets_mapM fun s _ => ?_) fun es => allCompare_conjunction
  refine Meets.map _ (meets_mapM fun f _ => ?_) fun es => allCompare_conjunction
  refine Meets.map _ (meets_mapM fun t _ => ?_) fun es => allCompare_disjunction
  have hsigned (e : Expr) (he : r.AllCompare e) :
      Meets faults (pure (if t.unary.isSome = true then .not e else e)) r.AllCompare := by
    refine meets_pure ?_
    split
    · exact he
    · exact he
  dsimp only
  split
  · exact (hi _).bind hsigned
  · exact (restriction_meets h levels _).bind hsigned

theorem expression_meets (h : r.Ready faults) (levels : Nat) (e : Expression) :
    Meets faults (r.expression levels e) r.AllCompare := by
  induction levels generalizing e with
  | zero =>
    simp only [expression]
    exact meets_fail _ _
  | succ levels ih =>
    simp only [expression]
    exact expressionBody_meets h levels ih e

theorem resolveTree_meets (h : r.Ready faults) (tree : Option Expression) :
    Meets faults (r.resolveTree tree) fun x => ∀ e, x.expr = some e → r.AllCompare e := by
  cases tree with
  | none => exact meets_pure fun e he => by cases he
  | some e =>
    rw [resolveTree_some]
    refine (expression_meets h r.options.maxDepth e).bind fun x hx => meets_pure fun y hy => ?_
    cases hy
    exact hx

theorem resolve_load (r : Resolver) (s : Store) (tree : Option Expression) :
    r.resolve (s.load tree) = r.resolveTree tree := by
  have htree := Store.tree?_load s tree
  unfold resolve
  cases hroot : (s.load tree).root with
  | none =>
    rw [Store.tree?, hroot, Option.bind_none] at htree
    subst htree
    rfl
  | some i =>
    rw [Store.tree?, hroot, Option.bind_some] at htree
    dsimp only
    rw [htree]
    cases tree with
    | none =>
      rw [Store.root_load_none] at hroot
      cases hroot
    | some e => rfl

/-- A store that was not filled with a tree may lead to nothing, which is a fault. -/
theorem resolve_compares (h : r.Ready faults) (store : Store)
    (hstore : ¬faults → ∃ s tree, store = Store.load s tree) :
    Meets faults (r.resolve store) fun x => ∀ e, x.expr = some e → r.AllCompare e := by
  -- without faults the tree is the one that was stored; with them a lost handle may be thrown
  by_cases hfault : faults
  · unfold resolve
    split
    · exact resolveTree_meets h none
    · split
      · exact meets_throw (fun hnot => hnot hfault) _
      · exact resolveTree_meets h _
  · obtain ⟨s, tree, rfl⟩ := hstore hfault
    rw [resolve_load]
    exact resolveTree_meets h tree

theorem resolve_meets (h : r.Ready faults) (store : Store)
    (hstore : ¬faults → ∃ s tree, store = Store.load s tree) :
    Meets faults (r.resolve store) fun x => ∀ e, x.expr = some e → r.AllFit e :=
  (resolve_compares h store hstore).mono fun _ hx e he hr y hy => (hx e he y hy).fits hr

/-! ## What resolution comes to -/

theorem run_of_meets {α : Type} {Q : α → Prop} {x : Resolve α} (h : Meets False x Q) :
    (∃ a, x.run = (.ok a, [])) ∨
      ∃ pos cause, x.run = (.error (.invalidValue pos), [⟨pos, cause⟩]) := by
  have hx := h []
  unfold Resolve.run
  generalize x [] = result at hx ⊢
  cases hx with
  | value _ => exact .inl ⟨_, rfl⟩
  | reported pos cause => exact .inr ⟨pos, cause, rfl⟩
  | fault hfault => exact hfault.elim

theorem of_run_eq_ok {α : Type} {Q : α → Prop} {x : Resolve α} (h : Meets faults x Q) {a : α}
    {reports : List (Report ValueCause)} (ha : x.run = (.ok a, reports)) : Q a := by
  have hx := h []
  unfold Resolve.run at ha
  generalize x [] = result at hx ha
  cases hx with
  | value hq =>
    cases ha
    exact hq
  | reported pos cause => cases ha
  | fault hfault e after => cases ha

end Resolver

/-- A field of a message of the schema, or a part of one that is a map. -/
def Declares (schema : Schema) (f : Field) : Prop :=
  ∃ m ∈ schema.messages, f ∈ m.fields ∨
    ∃ g ∈ m.fields, g.isMap = true ∧ (g.mapKey = some f ∨ g.mapValue = some f)

/-- A function whose parameters and result are fields of the schema or scalars of their own. -/
def Signature.Declared (schema : Schema) (s : Signature) : Prop :=
  ∀ f, f ∈ s.parameters ∨ s.result = some f → Declares schema f ∨
    ∃ name kind nullable, kind.isMessage = false ∧ f = scalar name kind nullable

theorem sound_of_declares {schema : Schema} (h : schema.Checked) {f : Field}
    (hf : Declares schema f) : schema.Sound f := by
  obtain ⟨m, hm, hf | ⟨g, hg, hmap, hkey | hvalue⟩⟩ := hf
  · exact h.sound m hm f hf
  · exact (h.sound m hm g hg).of_mapKey hmap hkey
  · exact (h.sound m hm g hg).of_mapValue hmap hvalue

theorem Signature.Declared.sound {schema : Schema} (h : schema.Checked) {s : Signature}
    (hs : s.Declared schema) : s.Sound schema := by
  intro f hf
  rcases hs f hf with hf | ⟨name, kind, nullable, hkind, rfl⟩
  · exact sound_of_declares h hf
  · exact (Schema.Plain.scalar rfl hkind).sound

/-- A filter that has been read resolves without a report, or fails with a value error and the one
report of it. -/
theorem Resolver.resolve_reported {spec : SchemaSpec} {r : Resolver}
    (hschema : Schema.build spec = .ok r.schema) (hroot : r.root ∈ r.schema.messages)
    (hhooks : r.options.HookFree)
    (hfunctions : ∀ name s, r.options.function? name = some s → s.Declared r.schema)
    {before store : Store} {o : ParserOptions} {input : String}
    (hparse : before.reparse o input = .ok store) :
    (∃ filter, (r.resolve store).run = (.ok filter, [])) ∨
      ∃ pos cause, (r.resolve store).run = (.error (.invalidValue pos), [⟨pos, cause⟩]) := by
  have hchecked := Schema.build_checked hschema
  have hsound : r.Sound :=
    ⟨hchecked, hroot, fun name s hs => (hfunctions name s hs).sound hchecked⟩
  have hstore : ∃ s tree, store = Store.load s tree := by
    obtain ⟨tree, -, rfl⟩ := Store.reparse_ok.1 hparse
    exact ⟨before, tree, rfl⟩
  exact run_of_meets (resolve_meets ⟨hhooks, fun _ => hsound⟩ store fun _ => hstore)

theorem exists_of_any {ε α : Type} (x : Except ε α) (p : α → Bool)
    (h : x.toOption.any p = true) : ∃ a, x = .ok a ∧ p a = true := by
  cases x with
  | error e => cases h
  | ok a => exact ⟨a, rfl, h⟩

/-- Events with a moment and counts by name. -/
def event : Message :=
  ⟨"test.Event", [
    { name := "name", kind := .string, nullable := true },
    Field.ofMessage "at" WellKnown.timestamp.fullName,
    Field.ofMap "counts" { name := "key", kind := .string } { name := "value", kind := .int64 }]⟩

/-- Filters of events, with a function that gives a number. -/
def eventResolver : Resolver where
  schema := ⟨(Schema.wellKnownMessages ++ [event]).map Schema.numbered, []⟩
  root := Schema.numbered event
  options := ResolverOptions.withFunction { allowIndirect := true }
    { name := "now", result := some (Signature.scalar "result" .int64 false) }

theorem eventResolver_hookFree : eventResolver.options.HookFree := ⟨rfl, rfl⟩

/-- A name that stands for no field, deep in a group: it is reported where it stands. -/
theorem unknown_name_reported : ∃ store,
    Store.empty.reparse {} "counts.x = (now() OR later)" = .ok store ∧
    (eventResolver.resolve store).run =
      (.error (.invalidValue ⟨21, 1, 22⟩),
        [⟨⟨21, 1, 22⟩, .unknownField "later" "test.Event"⟩]) := by
  obtain ⟨store, hstore, hcause⟩ := exists_of_any
    (Store.empty.reparse {} "counts.x = (now() OR later)")
    (fun store => (eventResolver.resolve store).run.2 ==
      [⟨⟨21, 1, 22⟩, .unknownField "later" "test.Event"⟩]) (by decide +kernel)
  have hschema : Schema.build { messages := [event] } = .ok eventResolver.schema := rfl
  have hroot : eventResolver.root ∈ eventResolver.schema.messages :=
    List.mem_map_of_mem (List.mem_append_right _ List.mem_cons_self)
  have hfunctions : ∀ name s, eventResolver.options.function? name = some s →
      s.Declared eventResolver.schema := by
    intro name s hs f hf
    rw [ResolverOptions.function?, eventResolver, ResolverOptions.withFunction,
      lookup?_register] at hs
    split at hs
    · cases hs
      rcases hf with hf | hf
      · cases hf
      · cases hf
        exact .inr ⟨"result", .int64, false, rfl, rfl⟩
    · cases hs
  refine ⟨store, hstore, ?_⟩
  rcases Resolver.resolve_reported hschema hroot eventResolver_hookFree hfunctions hstore with
    ⟨filter, hrun⟩ | ⟨pos, cause, hrun⟩
  · rw [hrun] at hcause
    cases hcause
  · rw [hrun] at hcause
    obtain ⟨rfl, rfl⟩ : pos = ⟨21, 1, 22⟩ ∧ cause = .unknownField "later" "test.Event" := by
      simpa using hcause
    exact hrun

/-- In a resolved filter the right side of every comparison is a value of what stands on the left,
at any depth. -/
theorem Resolver.resolve_wellTyped {r : Resolver} (hhooks : r.options.HookFree)
    (hnames : r.options.Registered) {store : Store} {filter : ResolvedFilter}
    {reports : List (Report ValueCause)} (h : (r.resolve store).run = (.ok filter, reports))
    {e : Expr} (he : filter.expr = some e) :
    ∀ x ∈ e.comparisons, ∃ f, r.operand? x.1 x.2.1 = some f ∧
      x.2.2.wellTyped r.schema f = true := by
  have hmeets := resolve_meets ⟨hhooks, fun hfault => absurd trivial hfault⟩ store
    fun hfault => absurd trivial hfault
  exact of_run_eq_ok hmeets h e he hnames

/-- A map value, a key, a whole map and a null, each as its own field has it. -/
theorem mixed_right_sides_wellTyped : ∃ store filter reports e,
    Store.empty.reparse .allExtensions
      "counts.x = (now() OR 3) counts : y NOT counts = \x7ba: 1, b: now()\x7d name = null" =
        .ok store ∧
    (eventResolver.resolve store).run = (.ok filter, reports) ∧ filter.expr = some e ∧
    e.comparisons.length = 4 ∧
    ∀ x ∈ e.comparisons, ∃ f, eventResolver.operand? x.1 x.2.1 = some f ∧
      x.2.2.wellTyped eventResolver.schema f = true := by
  obtain ⟨store, hstore, hany⟩ := exists_of_any (Store.empty.reparse .allExtensions
      "counts.x = (now() OR 3) counts : y NOT counts = \x7ba: 1, b: now()\x7d name = null")
    (fun store => (eventResolver.resolve store).run.1.toOption.any fun filter =>
      filter.expr.any fun e => e.comparisons.length == 4) (by decide +kernel)
  cases hrun : (eventResolver.resolve store).run with
  | mk outcome reports =>
    rw [hrun] at hany
    obtain ⟨filter, rfl, hfilter⟩ := exists_of_any outcome _ hany
    obtain ⟨e, he, hlength⟩ := (Option.any_eq_true _ _).1 hfilter
    refine ⟨store, filter, reports, e, hstore, hrun, he, eq_of_beq hlength, ?_⟩
    exact Resolver.resolve_wellTyped eventResolver_hookFree
      (ResolverOptions.registered_of_functions_eq_nil rfl |>.withFunction _) hrun he

/-- What holds of the expression that a text resolves to, as a check that can be run. -/
theorem exists_of_resolve_any (r : Resolver) (o : ParserOptions) (input : String) (p : Expr → Bool)
    (h : (Store.empty.reparse o input).toOption.any (fun store =>
      (r.resolve store).run.1.toOption.any fun filter => filter.expr.any p) = true) :
    ∃ store filter reports e, Store.empty.reparse o input = .ok store ∧
      (r.resolve store).run = (.ok filter, reports) ∧ filter.expr = some e ∧ p e = true := by
  obtain ⟨store, hstore, hany⟩ := exists_of_any _ _ h
  cases hrun : (r.resolve store).run with
  | mk outcome reports =>
    rw [hrun] at hany
    obtain ⟨filter, rfl, hfilter⟩ := exists_of_any outcome _ hany
    obtain ⟨e, he, hp⟩ := (Option.any_eq_true _ _).1 hfilter
    exact ⟨store, filter, reports, e, hstore, hrun, he, hp⟩

/-- Where indirection is not allowed, no right side reads a field or makes a call, at any depth; so
all of them are direct and cost nothing. -/
theorem Resolver.resolve_direct {r : Resolver} (hhooks : r.options.HookFree)
    (hdirect : r.options.allowIndirect = false) {store : Store} {filter : ResolvedFilter}
    {reports : List (Report ValueCause)} (h : (r.resolve store).run = (.ok filter, reports))
    {e : Expr} (he : filter.expr = some e) :
    ∀ x ∈ e.comparisons,
      x.2.2.reads = [] ∧ x.2.2.isIndirect = false ∧ x.2.2.complexity = 0 := by
  have hmeets := resolve_compares ⟨hhooks, fun hfault => absurd trivial hfault⟩ store
    fun hfault => absurd trivial hfault
  intro x hx
  have hreads := (of_run_eq_ok hmeets h e he x hx).direct hdirect
  exact ⟨hreads, x.2.2.plain_of_reads hreads⟩

/-- Filters of events without indirection. -/
def directEventResolver : Resolver :=
  { eventResolver with options := { eventResolver.options with allowIndirect := false } }

/-- A field's name as a text, a call on the left, a map and a group. -/
theorem names_as_texts_direct : ∃ store filter reports e,
    Store.empty.reparse .allExtensions
      "name = at now() = 3 counts = \x7ba: 1, b: 2\x7d name = (counts OR NOT 'b')" = .ok store ∧
    (directEventResolver.resolve store).run = (.ok filter, reports) ∧ filter.expr = some e ∧
    e.comparisons.length = 4 ∧
    ∀ x ∈ e.comparisons,
      x.2.2.reads = [] ∧ x.2.2.isIndirect = false ∧ x.2.2.complexity = 0 := by
  obtain ⟨store, filter, reports, e, hstore, hrun, he, hlength⟩ :=
    exists_of_resolve_any directEventResolver .allExtensions
      "name = at now() = 3 counts = \x7ba: 1, b: 2\x7d name = (counts OR NOT 'b')"
      (fun e => e.comparisons.length == 4) (by decide +kernel)
  refine ⟨store, filter, reports, e, hstore, hrun, he, eq_of_beq hlength, ?_⟩
  exact Resolver.resolve_direct ⟨rfl, rfl⟩ rfl hrun he

end ListQuery.Filter
