/-
Maps and messages of resolved filters. Each of them comes from a struct literal of the tree and has
the entries of the literal, one for one, and no two of its keys are the same. So a literal with two
spellings of one key has no value (`Resolver.resolve_keyed`).
-/
import Mathlib.Data.List.Nodup
import ListQuery.Proofs.Resolve.Defaults
import ListQuery.Proofs.Resolve.Logic
import ListQuery.Proofs.Resolve.Mirror
import ListQuery.Proofs.Tree.Shape

namespace ListQuery.Filter

open Resolve

/-- A value that has its parts under keys. -/
inductive Keyed where
  | map (entries : List (Expr × Expr))
  | message (typeName : String) (fields : List (String × Expr))

mutual

/-- The maps and messages of an expression at any depth, each before what it holds. -/
def Expr.keyed : Expr → List Keyed
  | .compare left _ right => left.keyed ++ right.keyed
  | .and items => itemKeyed items
  | .or items => itemKeyed items
  | .array items => itemKeyed items
  | .not item => item.keyed
  | .field _ => []
  | .call _ _ args _ => itemKeyed args
  | .value v => v.keyed
  | .map entries => .map entries :: entryKeyed entries

def Value.keyed : Value → List Keyed
  | .message typeName fields => .message typeName fields :: fieldKeyed fields
  | _ => []

def itemKeyed : List Expr → List Keyed
  | [] => []
  | e :: es => e.keyed ++ itemKeyed es

def entryKeyed : List (Expr × Expr) → List Keyed
  | [] => []
  | (k, v) :: es => k.keyed ++ v.keyed ++ entryKeyed es

def fieldKeyed : List (String × Expr) → List Keyed
  | [] => []
  | (_, v) :: fs => v.keyed ++ fieldKeyed fs

end

theorem itemKeyed_eq (es : List Expr) : itemKeyed es = es.flatMap Expr.keyed :=
  eq_flatMap_of_cons rfl (fun _ _ => rfl) es

theorem entryKeyed_eq (es : List (Expr × Expr)) :
    entryKeyed es = es.flatMap fun p => p.1.keyed ++ p.2.keyed :=
  eq_flatMap_of_cons rfl (fun _ _ => rfl) es

theorem fieldKeyed_eq (fs : List (String × Expr)) : fieldKeyed fs = fs.flatMap fun f => f.2.keyed :=
  eq_flatMap_of_cons rfl (fun _ _ => rfl) fs

theorem keyed_of_scalar {v : Value} (hv : v.isScalar = true) : (Expr.value v).keyed = [] := by
  cases v <;> first | rfl | cases hv

namespace Keyed

/-- No two keys of a map, and no two names of a message, are the same. -/
def Distinct : Keyed → Prop
  | map entries => (entries.map Prod.fst).Nodup
  | message _ fields => (fields.map Prod.fst).Nodup

/-- The entries are those of a literal, one for one: the names of its entries are the names of the
fields, or they are read as the keys of the map. -/
def Lists (s : StructLiteral) : Keyed → Prop
  | map entries => ∃ key, List.Forall₂ (fun (x : StructEntry) pair =>
      ∃ k, x.name.keyAs? key = some k ∧ pair.1 = .value k.toValue) s.entries entries
  | message _ fields =>
    List.Forall₂ (fun (x : StructEntry) field => field.1 = x.name.unquoted) s.entries fields

/-- What a literal becomes. -/
structure ComesFrom (x : Keyed) (s : StructLiteral) : Prop where
  distinct : x.Distinct
  lists : x.Lists s

end Keyed

/-- The struct literals among nodes. -/
def literals (ns : List Node) : List StructLiteral :=
  ns.filterMap fun
    | .comparable (.struct s) => some s
    | _ => none

theorem literals_append (ns ms : List Node) : literals (ns ++ ms) = literals ns ++ literals ms :=
  List.filterMap_append ..

theorem literals_flatMap {α : Type} (f : α → List Node) (as : List α) :
    literals (as.flatMap f) = as.flatMap fun a => literals (f a) :=
  List.filterMap_flatMap ..

/-- All literals of a tree are in its operands. -/
theorem literals_nodes (x : Expression) :
    literals x.nodes = x.simples.flatMap fun y => literals y.nodes :=
  x.filterMap_nodes _ (fun _ => rfl) (fun _ => rfl) (fun _ => rfl) fun _ => rfl

/-! ## What comes from which literal -/

/-- All maps and messages come from some of the literals, in their order. -/
abbrev AllComeFrom (xs : List Keyed) (ss : List StructLiteral) : Prop :=
  List.SublistForall₂ Keyed.ComesFrom xs ss

namespace AllComeFrom

theorem append {xs ys : List Keyed} {ss ts : List StructLiteral} (h : AllComeFrom xs ss)
    (h' : AllComeFrom ys ts) : AllComeFrom (xs ++ ys) (ss ++ ts) := by
  induction h with
  | @nil ss =>
    induction ss with
    | nil => exact h'
    | cons s ss ih => exact .cons_right ih
  | cons hx _ ih => exact .cons hx ih
  | cons_right _ ih => exact .cons_right ih

theorem flatMap {α β : Type} {f : α → List Keyed} {g : β → List StructLiteral} {as : List α}
    {bs : List β} (h : List.Forall₂ (fun b a => AllComeFrom (f a) (g b)) bs as) :
    AllComeFrom (as.flatMap f) (bs.flatMap g) := by
  induction h with
  | nil => exact .nil
  | cons h _ ih => exact h.append ih

theorem distinct {xs : List Keyed} {ss : List StructLiteral} (h : AllComeFrom xs ss) :
    ∀ x ∈ xs, x.Distinct := by
  induction h with
  | nil => exact fun _ hx => absurd hx List.not_mem_nil
  | cons hx _ ih => exact List.forall_mem_cons.2 ⟨hx.distinct, ih⟩
  | cons_right _ ih => exact ih

theorem lists {xs : List Keyed} {ss : List StructLiteral} (h : AllComeFrom xs ss) :
    List.SublistForall₂ (fun x s => x.Lists s) xs ss := by
  induction h with
  | nil => exact .nil
  | cons hx _ ih => exact .cons hx.lists ih
  | cons_right _ ih => exact .cons_right ih

end AllComeFrom

/-- All maps and messages of an expression come from literals among nodes. -/
def KeyedIn (ns : List Node) (e : Expr) : Prop := AllComeFrom e.keyed (literals ns)

theorem Arg.keyedIn_of_mirrored {a : Arg} {e : Expr}
    (h : a.Mirrored (fun c => KeyedIn c.nodes) (fun x => KeyedIn x.nodes) e) :
    KeyedIn a.nodes e := by
  cases a with
  | composite c =>
    obtain ⟨span, x⟩ := c
    exact h
  | comparable c => exact h

/-- A tree has the maps and messages of its operands. -/
theorem keyedIn_of_assembled {S : Simple → Expr → Prop}
    (hS : ∀ y e, S y e → KeyedIn y.nodes e) {x : Expression} {e : Expr} (h : x.Assembled S e) :
    KeyedIn x.nodes e := by
  obtain ⟨es, hes, hkeyed⟩ := h.gather (g := Expr.keyed) (fun _ => rfl) itemKeyed_eq itemKeyed_eq
  rw [KeyedIn, hkeyed, literals_nodes]
  exact .flatMap (hes.imp hS)

/-- Every way to make a value takes maps and messages from literals. -/
theorem mirror_keyed (r : Resolver) :
    Mirror (fun c => KeyedIn c.nodes) (fun x => KeyedIn x.nodes) r where
  scalar c v hv := by
    rw [KeyedIn, keyed_of_scalar hv]
    exact .nil
  field m x f places _ _ := .nil
  call c s es _ hes := by
    obtain ⟨span, name, args⟩ := c
    rw [KeyedIn, Expr.keyed, itemKeyed_eq, Comparable.nodes, Call.nodes, argNodes_eq]
    change AllComeFrom _ (literals (args.flatMap Arg.nodes))
    rw [literals_flatMap]
    exact .flatMap (hes.imp fun a e he => Arg.keyedIn_of_mirrored he)
  array a es hes := by
    obtain ⟨span, elements⟩ := a
    rw [KeyedIn, Expr.keyed, itemKeyed_eq, Comparable.nodes, ArrayLiteral.nodes, elementNodes_eq]
    change AllComeFrom _ (literals (elements.flatMap Comparable.nodes))
    rw [literals_flatMap]
    exact .flatMap hes
  message s name fields hfields hnodup := by
    obtain ⟨span, typeName, entries⟩ := s
    rw [KeyedIn, Expr.keyed, Value.keyed, fieldKeyed_eq, Comparable.nodes, StructLiteral.nodes,
      entryNodes_eq]
    change AllComeFrom _ (_ :: literals (entries.flatMap StructEntry.nodes))
    rw [literals_flatMap]
    refine .cons ⟨hnodup, hfields.imp fun x field h => h.1⟩ (AllComeFrom.flatMap (hfields.imp ?_))
    rintro ⟨entryName, value⟩ field h
    exact h.2
  map s key pairs hpairs hnodup := by
    obtain ⟨span, typeName, entries⟩ := s
    rw [KeyedIn, Expr.keyed, entryKeyed_eq, Comparable.nodes, StructLiteral.nodes, entryNodes_eq]
    change AllComeFrom _ (_ :: literals (entries.flatMap StructEntry.nodes))
    rw [literals_flatMap]
    refine .cons ⟨hnodup, key, hpairs.imp ?_⟩ (AllComeFrom.flatMap (hpairs.imp ?_))
    · rintro entry pair ⟨k, hk, hpair, -⟩
      exact ⟨k, hk, hpair⟩
    · rintro ⟨entryName, value⟩ pair ⟨k, -, hpair, h⟩
      rw [hpair, keyed_of_scalar (by cases k <;> rfl)]
      exact h
  group x e h := by
    refine keyedIn_of_assembled (fun y e hy => ?_) h
    cases y with
    | composite c =>
      obtain ⟨span, x⟩ := c
      exact hy
    | restriction z =>
      obtain ⟨span, c, comparison⟩ := z
      obtain ⟨rfl, hz⟩ := hy
      exact hz

theorem Restriction.keyedIn_of_mirrored {x : Restriction} {e : Expr}
    (h : x.Mirrored (fun c => KeyedIn c.nodes) (fun x => KeyedIn x.nodes) e) :
    KeyedIn x.nodes e := by
  obtain ⟨span, c, comparison⟩ := x
  cases comparison with
  | none => exact h
  | some comparison =>
    obtain ⟨comparator, pos, arg⟩ := comparison
    obtain ⟨left, right, rfl, hleft, hright⟩ := h
    rw [KeyedIn, Expr.keyed, Restriction.nodes, Comparison.nodes]
    change AllComeFrom _ (literals (c.nodes ++ arg.nodes))
    rw [literals_append]
    exact hleft.append (Arg.keyedIn_of_mirrored hright)

theorem Simple.keyedIn_of_resolved {y : Simple} {e : Expr}
    (h : y.Resolved (fun c => KeyedIn c.nodes) (fun x => KeyedIn x.nodes)
      (fun x => KeyedIn x.nodes) e) : KeyedIn y.nodes e := by
  cases y with
  | composite c =>
    obtain ⟨span, x⟩ := c
    exact h
  | restriction z => exact Restriction.keyedIn_of_mirrored h

/-! ## One key twice -/

/-- Entries of a literal whose names are read as one key. -/
def StructLiteral.Repeats (s : StructLiteral) (key : Field) : Prop :=
  ∃ a b k, [a, b].Sublist s.entries ∧ a.name.keyAs? key = some k ∧ b.name.keyAs? key = some k

/-- Where the keys of pairs are different, so are the keys that the names are read as. -/
theorem nodup_keys {Q : Comparable → Expr → Prop} {key : Field} {entries : List StructEntry}
    {pairs : List (Expr × Expr)} (h : List.Forall₂ (StructEntry.KeysPair Q key) entries pairs)
    (hnodup : (pairs.map Prod.fst).Nodup) :
    (entries.map fun x => x.name.keyAs? key).Nodup := by
  refine List.Nodup.of_map (fun k => Expr.value (k.elim .null MapKey.toValue)) ?_
  suffices hkeys : pairs.map Prod.fst = (entries.map fun x => x.name.keyAs? key).map
      fun k => Expr.value (k.elim .null MapKey.toValue) from hkeys ▸ hnodup
  clear hnodup
  induction h with
  | nil => rfl
  | cons hpair _ ih =>
    obtain ⟨k, hk, hfst, -⟩ := hpair
    rw [List.map_cons, List.map_cons, List.map_cons, hk, hfst, ih]
    rfl

theorem StructLiteral.Repeats.not_nodup {s : StructLiteral} {key : Field} (h : s.Repeats key) :
    ¬(s.entries.map fun x => x.name.keyAs? key).Nodup := by
  obtain ⟨a, b, k, hsub, ha, hb⟩ := h
  intro hnodup
  have hpair := hnodup.sublist (hsub.map fun x => x.name.keyAs? key)
  rw [List.map_cons, List.map_cons, ha, hb] at hpair
  exact (List.nodup_cons.1 hpair).1 List.mem_cons_self

namespace Resolver

variable {r : Resolver} {mode : ValueMode}

theorem trivial_mirror (r : Resolver) : Mirror (fun _ _ => True) (fun _ _ => True) r :=
  ⟨fun _ _ _ => trivial, fun _ _ _ _ _ _ => trivial, fun _ _ _ _ _ => trivial,
    fun _ _ _ => trivial, fun _ _ _ _ _ => trivial, fun _ _ _ _ _ => trivial,
    fun _ _ _ => trivial⟩

/-- The field that the names of entries are keys of, where a literal stands for a map: maps have one
of their own, and in maps of any values the keys are texts. -/
def keyField? (r : Resolver) (f : Field) : Option Field :=
  if f.isMap then f.mapKey
  else
    match r.schema.wellKnownOf? f with
    | some .struct | some .value => some textKey
    | _ => none

variable {levels : Nat} {f key : Field} {s : StructLiteral}

theorem mapEntries_repeats (hr : r.Ready True) (value : Field) (h : s.Repeats key) :
    Meets True (mapEntries (r.innerAt levels) key value mode [] s.entries) fun _ => False :=
  (((trivial_mirror r).innerAt hr levels).mapEntries key value [] s.entries).mono
    fun _ ⟨hes, hfresh⟩ => h.not_nodup (nodup_keys hes hfresh.nodup)

theorem dynamicMap_repeats (hr : r.Ready True) (h : s.Repeats textKey) :
    Meets True (dynamicMap (r.innerAt levels) s mode) fun _ => False :=
  (checkStructName_meets s _ _).bind fun _ _ =>
    (((trivial_mirror r).innerAt hr levels).dynamicEntries [] s.entries).bind
      fun _ ⟨hes, hfresh⟩ => absurd (nodup_keys hes hfresh.nodup) h.not_nodup

theorem dynamicValue_repeats (hr : r.Ready True) (h : s.Repeats textKey) :
    Meets True (r.dynamicValue levels (.struct s) mode) fun _ => False := by
  cases levels with
  | zero =>
    rw [dynamicValue]
    exact meets_fail _ _
  | succ levels =>
    rw [dynamicValue]
    exact dynamicMap_repeats hr h

theorem structValue_repeats (hr : r.Ready True) (hkey : r.keyField? f = some key)
    (h : s.Repeats key) :
    Meets True (r.structValue (r.innerAt levels) f s mode) fun _ => False := by
  unfold keyField? at hkey
  refine meets_ite (fun hmap => ?_) fun hmap => ?_
  · rw [if_pos hmap] at hkey
    refine meets_ite (fun _ => meets_fail _ _) fun _ => ?_
    rw [hkey]
    split
    · exact meets_throw (fun hfault => hfault trivial) _
    · exact meets_throw (fun hfault => hfault trivial) _
    · rename_i hsome _
      cases hsome
      exact (mapEntries_repeats hr _ h).bind fun _ hfalse => hfalse.elim
  · rw [if_neg hmap] at hkey
    cases hw : r.schema.wellKnownOf? f with
    | none =>
      rw [hw] at hkey
      cases hkey
    | some w =>
      rw [hw] at hkey
      cases w with
      | timestamp => cases hkey
      | duration => cases hkey
      | struct =>
        cases hkey
        exact dynamicMap_repeats hr h
      | value =>
        cases hkey
        exact dynamicValue_repeats hr h

/-- A literal with two spellings of one key is no value, on whatever level it stands. -/
theorem comparableValue_repeats (hr : r.Ready True) (hkey : r.keyField? f = some key)
    (h : s.Repeats key) :
    Meets True (r.comparableValue levels f (.struct s) mode) fun _ => False := by
  cases levels with
  | zero =>
    rw [comparableValue]
    exact meets_fail _ _
  | succ levels =>
    rw [comparableValue]
    exact structValue_repeats hr hkey h

/-- A comparison of a path with a literal that has one key of the path's field twice. With `:` a map
is compared with a key and not with a literal, so this is left out. -/
def SpellsTwice (r : Resolver) (x : Restriction) : Prop :=
  ∃ m c s selector f after key, x.comparable = .member m ∧ x.comparison = some c ∧
    c.arg = .comparable (.struct s) ∧ (c.comparator = .has → f.isMap = false) ∧
    r.selectRoot r.options.maxDepth m.path [] = .ok (selector, f) after ∧
    r.keyField? f = some key ∧ s.Repeats key

theorem rightSide_repeats (hr : r.Ready True) {c : Comparison}
    (hc : c.arg = .comparable (.struct s)) (hhas : c.comparator = .has → f.isMap = false)
    (hkey : r.keyField? f = some key) (h : s.Repeats key) :
    Meets True (r.rightSide levels f c) fun _ => False := by
  have hvalue (mode : ValueMode) :
      Meets True (argValue (r.innerAt levels) f c.arg mode) fun _ => False := by
    rw [hc]
    exact comparableValue_repeats hr hkey h
  by_cases hop : c.comparator = .isIn
  · rw [rightSide_isIn hop]
    exact (hvalue _).bind fun _ hfalse => hfalse.elim
  · rw [rightSide_plain ⟨hop, hhas⟩]
    exact hvalue _

theorem restriction_repeats (hr : r.Ready True) {x : Restriction} (hx : r.SpellsTwice x) (e : Expr)
    (after : List (Report ValueCause)) : r.restriction r.options.maxDepth x [] ≠ .ok e after := by
  obtain ⟨span, _, _⟩ := x
  obtain ⟨m, c, s, selector, f, s₁, key, rfl, rfl, hc, hhas, hpath, hkey, h⟩ := hx
  rw [restriction_path hpath, hooked_eq_none hr.hooks, pure_bind]
  intro hok
  obtain ⟨right, s₂, hright, -⟩ := bind_ok.1 hok
  exact ((rightSide_repeats hr hc hhas hkey h).of_ok hright).1

end Resolver

/-- A tree that means anything compares no path with a literal that has one key twice. -/
theorem Resolver.Means.not_spellsTwice {r : Resolver} (hr : r.Ready True) {tree : Expression}
    {e : Expr} (h : r.Means tree e) : ∀ x ∈ tree.restrictions, ¬r.SpellsTwice x := by
  have hatoms := h.atoms
  generalize tree.restrictions = xs, e.atoms = es at hatoms
  induction hatoms with
  | nil => exact fun _ hx => absurd hx List.not_mem_nil
  | cons hatom _ ih =>
    refine List.forall_mem_cons.2 ⟨fun hx => ?_, ih⟩
    obtain ⟨s, hok⟩ := Resolver.restriction_of_atom? hatom.1
    exact Resolver.restriction_repeats hr hx _ s hok

/-- In a filter that has been resolved no map has one key twice and no message one field, and each
map and message has the entries of a literal of the tree, one for one; the literals stand in the
order of the maps and messages that they become. So a literal with two spellings of one key never
resolves, neither as a map nor as a map of any values, and no restriction of the tree compares a
path with one. -/
theorem Resolver.resolve_keyed {r : Resolver} (hhooks : r.options.HookFree) {before store : Store}
    {o : ParserOptions} {input : String} (hparse : before.reparse o input = .ok store)
    {filter : ResolvedFilter} {reports : List (Report ValueCause)}
    (h : (r.resolve store).run = (.ok filter, reports)) {e : Expr} (he : filter.expr = some e) :
    (∀ x ∈ e.keyed, x.Distinct) ∧
    (∃ tree, store.tree? = some tree ∧
      List.SublistForall₂ (fun x s => x.Lists s) e.keyed (literals tree.nodes) ∧
      ∀ x ∈ tree.restrictions, ¬r.SpellsTwice x) ∧
    (∀ f key s, r.keyField? f = some key → s.Repeats key → ∀ levels mode reports v after,
      r.comparableValue levels f (.struct s) mode reports ≠ .ok v after) ∧
    ∀ s, s.Repeats textKey → ∀ levels mode reports v after,
      r.dynamicValue levels (.struct s) mode reports ≠ .ok v after := by
  have hr : r.Ready True := ⟨hhooks, fun hfault => absurd trivial hfault⟩
  have hassembled (x : Expression) (e : Expr) := keyedIn_of_assembled (x := x) (e := e)
    fun y e hy => Simple.keyedIn_of_resolved hy
  obtain ⟨-, rfl⟩ | ⟨tree, e', -, htree, rfl, hkeyed⟩ :=
    (mirror_keyed r).resolve hassembled hhooks hparse h
  · cases he
  cases he
  refine ⟨hkeyed.distinct, ⟨tree, htree, hkeyed.lists, ?_⟩, ?_, ?_⟩
  · obtain ⟨x, -, rfl⟩ := Store.reparse_ok.1 hparse
    rw [Store.tree?_load] at htree
    subst htree
    obtain ⟨_, -, hmeans⟩ := Resolver.means_of_run hhooks h
    exact hmeans.not_spellsTwice hr
  · intro f key s hkey hrepeats levels mode reports v after hv
    exact ((comparableValue_repeats hr hkey hrepeats).of_ok hv).1
  · intro s hrepeats levels mode reports v after hv
    exact ((dynamicValue_repeats hr hrepeats).of_ok hv).1

/-- The field of the keys of totals, which are numbers. -/
def totalKey : Field := { name := "key", kind := .int32, number := 1 }

def totals : Field := Field.ofMap "totals" totalKey { name := "value", kind := .int64 }

/-- Accounts with totals by number, accounts in them, and notes of any shape. -/
def ledger : Message :=
  ⟨"test.Ledger", [totals, Field.ofMessage "parent" "test.Ledger",
    Field.ofMessage "notes" WellKnown.struct.fullName]⟩

/-- Filters of accounts. -/
def ledgerResolver : Resolver where
  schema := ⟨(Schema.wellKnownMessages ++ [ledger]).map Schema.numbered, []⟩
  root := Schema.numbered ledger

/-- An entry with a number as its name and its value. -/
def numberEntry (l : Leaf) : StructEntry := ⟨l, .member ⟨⟨.start, l.token.stop⟩, l, []⟩⟩

/-- The literal `{15: 15, 017: 017}`, that has fifteen as a key twice. -/
def fifteenTwice : StructLiteral :=
  ⟨⟨.start, 0⟩, [], [numberEntry ⟨⟨.int, "15", .start⟩, rfl⟩, numberEntry ⟨⟨.oct, "017", .start⟩, rfl⟩]⟩

theorem fifteenTwice_repeats : fifteenTwice.Repeats totalKey :=
  ⟨_, _, .int64 15, List.Sublist.refl _, by decide +kernel, by decide +kernel⟩

/-- The comparison `totals = {15: 15, 017: 017}`. -/
def totalsTwice : Restriction :=
  ⟨.nowhere, .member (.ofWords "totals" []), some ⟨.equals, .start, .comparable (.struct fifteenTwice)⟩⟩

theorem totalsTwice_spellsTwice : ledgerResolver.SpellsTwice totalsTwice :=
  ⟨_, _, fifteenTwice, _, _, [], totalKey, rfl, rfl, rfl, nofun, rfl, rfl, fifteenTwice_repeats⟩

/-- Maps of both sorts in a message, and a literal that has 15 and 017 as keys. -/
theorem nested_maps_keyed : ∃ store filter reports e,
    Store.empty.reparse .allExtensions
      "parent = test.Ledger\x7btotals: \x7b15: 1, 016: 2\x7d, notes: \x7b\"a\": \x7bb: c\x7d\x7d\x7d" =
        .ok store ∧
    (ledgerResolver.resolve store).run = (.ok filter, reports) ∧ filter.expr = some e ∧
    e.keyed.length = 4 ∧ (∀ x ∈ e.keyed, x.Distinct) ∧
    (∃ tree, store.tree? = some tree ∧
      List.SublistForall₂ (fun x s => x.Lists s) e.keyed (literals tree.nodes) ∧
      ∀ x ∈ tree.restrictions, ¬ledgerResolver.SpellsTwice x) ∧
    ledgerResolver.SpellsTwice totalsTwice ∧
    ∃ f key s, ledgerResolver.keyField? f = some key ∧ s.Repeats key ∧
      ∀ levels mode reports v after,
        ledgerResolver.comparableValue levels f (.struct s) mode reports ≠ .ok v after := by
  obtain ⟨store, filter, reports, e, hstore, hrun, he, hlength⟩ :=
    exists_of_resolve_any ledgerResolver .allExtensions
      "parent = test.Ledger\x7btotals: \x7b15: 1, 016: 2\x7d, notes: \x7b\"a\": \x7bb: c\x7d\x7d\x7d"
      (fun e => e.keyed.length == 4) (by decide +kernel)
  obtain ⟨hdistinct, hlists, hmap, -⟩ := Resolver.resolve_keyed ⟨rfl, rfl⟩ hstore hrun he
  refine ⟨store, filter, reports, e, hstore, hrun, he, eq_of_beq hlength, hdistinct, hlists,
    totalsTwice_spellsTwice, ?_⟩
  have hkey : ledgerResolver.keyField? totals = some totalKey := rfl
  exact ⟨totals, totalKey, fifteenTwice, hkey, fifteenTwice_repeats,
    hmap totals totalKey fifteenTwice hkey fifteenTwice_repeats⟩

end ListQuery.Filter
