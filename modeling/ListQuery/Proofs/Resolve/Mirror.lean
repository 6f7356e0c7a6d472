/-
What resolution makes of a tree, types aside. A value mirrors what is written: an array has a value
for each element, a call one for each argument, a map or a message one for each entry, all with
different keys, a field is what its path leads to, and a group is put together as the tree is. So a
relation between trees and expressions that is kept by each of these ways to make a value (`Mirror`)
holds of all that is resolved (`Mirror.restriction`), and one for whole trees that is kept by
putting them together holds of whole filters (`Mirror.expression`).
-/
import Mathlib.Data.List.Forall2
import ListQuery.Proofs.Resolve.Filters
import ListQuery.Proofs.Resolve.Walks
import ListQuery.Proofs.Tree.Operands

namespace ListQuery.Filter

open Resolve

theorem Resolve.meets_mapM_forall₂ {α γ : Type} {faults : Prop} {f : γ → Resolve α}
    {R : γ → α → Prop} (h : ∀ x, Meets faults (f x) (R x)) :
    ∀ xs : List γ, Meets faults (xs.mapM f) (List.Forall₂ R xs)
  | [] => meets_pure .nil
  | x :: xs => by
    rw [List.mapM_cons]
    refine (h x).bind fun a ha => ?_
    exact (meets_mapM_forall₂ h xs).bind fun as has => meets_pure (.cons ha has)

section Assembled

variable (S : Simple → Expr → Prop)

/-- A term as an expression: `NOT` and the dash negate. -/
def Term.Assembled (t : Term) (e : Expr) : Prop :=
  ∃ x, S t.simple x ∧ e = if t.unary.isSome = true then .not x else x

def Factor.Assembled (f : Factor) (e : Expr) : Prop :=
  ∃ es, List.Forall₂ (Term.Assembled S) f.terms es ∧ e = .disjunction es

def Sequence.Assembled (s : Sequence) (e : Expr) : Prop :=
  ∃ es, List.Forall₂ (Factor.Assembled S) s.factors es ∧ e = .conjunction es

/-- An expression put together as a tree is, out of expressions for its restrictions and groups. -/
def Expression.Assembled (x : Expression) (e : Expr) : Prop :=
  ∃ es, List.Forall₂ (Sequence.Assembled S) x.sequences es ∧ e = .conjunction es

end Assembled

section Gather

variable {S : Simple → Expr → Prop} {β : Type} {g : Expr → List β}

theorem gather_flatMap {α : Type} {R : α → Expr → Prop} {u : α → List Simple}
    (h : ∀ a e, R a e → ∃ xs, List.Forall₂ S (u a) xs ∧ g e = xs.flatMap g) {as : List α}
    {es : List Expr} (hes : List.Forall₂ R as es) :
    ∃ xs, List.Forall₂ S (as.flatMap u) xs ∧ es.flatMap g = xs.flatMap g := by
  induction hes with
  | nil => exact ⟨[], .nil, rfl⟩
  | cons hr _ ih =>
    obtain ⟨xs, hxs, hg⟩ := h _ _ hr
    obtain ⟨ys, hys, hg'⟩ := ih
    refine ⟨xs ++ ys, List.rel_append hxs hys, ?_⟩
    rw [List.flatMap_cons, hg, hg', List.flatMap_append]

/-- What looks through negations and lists what the items of a junction have, one behind the other,
lists what the operands of the tree have. -/
theorem Expression.Assembled.gather {x : Expression} {e : Expr} (h : x.Assembled S e)
    (hnot : ∀ e, g (.not e) = g e) (hand : ∀ es, g (.and es) = es.flatMap g)
    (hor : ∀ es, g (.or es) = es.flatMap g) :
    ∃ es, List.Forall₂ S x.simples es ∧ g e = es.flatMap g := by
  have hone (e : Expr) : [e].flatMap g = g e := List.flatMap_singleton ..
  have hterm (t : Term) (e : Expr) (ht : t.Assembled S e) :
      ∃ es, List.Forall₂ S [t.simple] es ∧ g e = es.flatMap g := by
    obtain ⟨y, hy, rfl⟩ := ht
    refine ⟨[y], .cons hy .nil, ?_⟩
    rw [hone]
    split
    · exact hnot y
    · rfl
  have hfactor (f : Factor) (e : Expr) (hf : f.Assembled S e) :
      ∃ es, List.Forall₂ S (f.terms.map Term.simple) es ∧ g e = es.flatMap g := by
    obtain ⟨es, hes, rfl⟩ := hf
    rw [Expr.apply_disjunction hone hor, ← List.flatMap_pure_eq_map]
    exact gather_flatMap hterm hes
  have hsequence (s : Sequence) (e : Expr) (hs : s.Assembled S e) :
      ∃ es, List.Forall₂ S (s.factors.flatMap fun f => f.terms.map Term.simple) es ∧
        g e = es.flatMap g := by
    obtain ⟨es, hes, rfl⟩ := hs
    rw [Expr.apply_conjunction hone hand]
    exact gather_flatMap hfactor hes
  obtain ⟨es, hes, rfl⟩ := h
  rw [Expr.apply_conjunction hone hand]
  exact gather_flatMap hsequence hes

end Gather

/-! ## Relations that values keep -/

/-- Whether a value holds no expressions. -/
def Value.isScalar : Value → Bool
  | .message .. => false
  | _ => true

section Relations

variable (Q : Comparable → Expr → Prop) (G : Expression → Expr → Prop)

/-- A relation for comparables and one for groups, as one for arguments. -/
def Arg.Mirrored : Arg → Expr → Prop
  | .composite c => G c.expression
  | .comparable c => Q c

/-- The same for what a group is made of, where nothing is compared. -/
def Simple.Mirrored : Simple → Expr → Prop
  | .composite c => G c.expression
  | .restriction x => fun e => x.comparison = none ∧ Q x.comparable e

/-- The same for whole restrictions. -/
def Restriction.Mirrored (x : Restriction) (e : Expr) : Prop :=
  match x.comparison with
  | none => Q x.comparable e
  | some c => ∃ left right,
    e = .compare left c.comparator right ∧ Q x.comparable left ∧ c.arg.Mirrored Q G right

/-- The same for what a whole tree is made of, with a relation for whole trees. -/
def Simple.Resolved (H : Expression → Expr → Prop) : Simple → Expr → Prop
  | .composite c => H c.expression
  | .restriction x => x.Mirrored Q G

/-- The same for an entry of a message: the field is the one that is named. -/
def StructEntry.NamesField (entry : StructEntry) (field : String × Expr) : Prop :=
  field.1 = entry.name.unquoted ∧ Q entry.value field.2

/-- The same for an entry of a map: the name is read as a key. -/
def StructEntry.KeysPair (key : Field) (entry : StructEntry) (pair : Expr × Expr) : Prop :=
  ∃ k, entry.name.keyAs? key = some k ∧ pair.1 = .value k.toValue ∧ Q entry.value pair.2

/-- Relations that every way of a resolver to make a value keeps. -/
structure Mirror (r : Resolver) : Prop where
  scalar : ∀ c v, v.isScalar = true → Q c (.value v)
  field : ∀ m x f places, Walk r.schema r.root m.path places → x.Follows f places →
    Q (.member m) (.field x)
  call : ∀ c s es, r.options.function? (joinPath .unquoted c.name) = some s →
    List.Forall₂ (Arg.Mirrored Q G) c.args es →
      Q (.call c) (.call s.package s.name es s.complexity)
  array : ∀ a es, List.Forall₂ Q a.elements es → Q (.array a) (.array es)
  message : ∀ s name fields, List.Forall₂ (StructEntry.NamesField Q) s.entries fields →
    (fields.map Prod.fst).Nodup → Q (.struct s) (.value (.message name fields))
  map : ∀ s key pairs, List.Forall₂ (StructEntry.KeysPair Q key) s.entries pairs →
    (pairs.map Prod.fst).Nodup → Q (.struct s) (.map pairs)
  group : ∀ x e, x.Assembled (Simple.Mirrored Q G) e → G x e

end Relations

/-- The field of the keys where a map may hold values of any type: they are texts. -/
def textKey : Field := { name := "key", kind := .string }

theorem MapKey.toValue_inj {k k' : MapKey} (h : k.toValue = k'.toValue) : k = k' := by
  cases k <;> cases k' <;> cases h <;> rfl

/-- The keys of entries that come behind others: they differ from each other and from all that have
been seen. -/
structure Fresh {α β : Type} (f : α → β) (seen : List α) (keys : List β) : Prop where
  nodup : keys.Nodup
  unseen : ∀ a ∈ seen, f a ∉ keys

namespace Fresh

variable {α β : Type} {f : α → β} {a : α} {seen : List α} {keys : List β}

theorem nil (f : α → β) (seen : List α) : Fresh f seen [] := ⟨.nil, fun _ _ => List.not_mem_nil⟩

/-- The entries behind have seen the key in front of them. -/
theorem cons (h : Fresh f (a :: seen) keys) (hf : Function.Injective f) (hnew : a ∉ seen) :
    Fresh f seen (f a :: keys) where
  nodup := List.nodup_cons.2 ⟨h.unseen a List.mem_cons_self, h.nodup⟩
  unseen b hb hmem := by
    rcases List.mem_cons.1 hmem with heq | hmem
    · exact hnew (hf heq ▸ hb)
    · exact h.unseen b (List.mem_cons_of_mem a hb) hmem

end Fresh

namespace Mirror

variable {Q : Comparable → Expr → Prop} {G : Expression → Expr → Prop} {r : Resolver}
  (hm : Mirror Q G r) {f : Field} {mode : ValueMode}

include hm

section Members

variable (levels : Nat) (m : Member)

/-- A path gives the selector that its walk leads to. -/
theorem selectRoot : Meets True (r.selectRoot levels m.path) fun x => Q (.member m) (.field x.1) :=
  (Resolver.select_walk levels r.root m.path).mono fun x ⟨places, hwalk, _, hfollows⟩ =>
    hm.field m x.1 x.2 places hwalk hfollows

theorem indirect : Meets True (r.indirect levels m mode) (Q (.member m)) :=
  meets_ite (fun _ => (hm.selectRoot levels m).bind fun _ hx => meets_pure hx)
    fun _ => meets_fail _ _

theorem indirectOnly : Meets True (r.indirectOnly levels f m mode) (Q (.member m)) :=
  meets_ite (fun _ => hm.indirect levels m) fun _ => meets_fail _ _

theorem noFields {v : Value} (hv : v.isScalar = true) :
    Meets True (do Resolver.noFields m; return .value v) (Q (.member m)) :=
  (Resolver.noFields_meets m).bind fun _ _ => meets_pure (hm.scalar _ v hv)

theorem nullValue : Meets True (Resolver.nullValue f m mode) (Q (.member m)) := by
  refine (Resolver.noFields_meets m).bind fun _ _ => ?_
  exact meets_ite (fun _ => meets_pure (hm.scalar _ _ rfl)) fun _ => meets_fail _ _

theorem numericValue : Meets True (r.numericValue levels f m mode) (Q (.member m)) := by
  refine meets_ite (fun _ => ?_) fun _ => hm.indirectOnly levels m
  refine (Resolver.noFields_meets m).bind fun _ _ => meets_ite (fun _ => ?_) fun _ => ?_
  · exact (Resolver.floatLiteral_meets f m.value).bind fun x _ => meets_pure (hm.scalar _ _ rfl)
  · refine (Resolver.integerLiteral_meets r.schema f m.value).bind fun k _ => ?_
    exact meets_pure (hm.scalar _ _ (by cases k <;> rfl))

theorem boolValue : Meets True (r.boolValue levels f m mode) (Q (.member m)) :=
  meets_ite (fun _ => hm.noFields m rfl) fun _ => hm.indirectOnly levels m

theorem stringValue : Meets True (r.stringValue levels m mode) (Q (.member m)) :=
  meets_ite (fun _ => hm.indirect levels m) fun _ => hm.noFields m rfl

theorem bytesValue : Meets True (r.bytesValue levels f m mode) (Q (.member m)) := by
  refine meets_ite (fun _ => hm.indirect levels m) fun _ => ?_
  refine (Resolver.noFields_meets m).bind fun _ _ => ?_
  split
  · exact meets_pure (hm.scalar _ _ rfl)
  · exact meets_fail _ _

theorem enumValue : Meets True (r.enumValue levels f m mode) (Q (.member m)) := by
  refine meets_ite (fun _ => ?_) fun _ => meets_fail _ _
  split
  · exact hm.noFields m rfl
  · exact meets_ite (fun _ => hm.indirect levels m) fun _ => meets_fail _ _

theorem timestampValue : Meets True (r.timestampValue levels f m mode) (Q (.member m)) := by
  refine meets_ite (fun _ => ?_) fun _ => hm.indirectOnly levels m
  refine (Resolver.noFields_meets m).bind fun _ _ => ?_
  split
  · exact meets_pure (hm.scalar _ _ rfl)
  · exact meets_fail _ _

theorem durationValue : Meets True (r.durationValue levels f m mode) (Q (.member m)) := by
  refine meets_ite (fun _ => ?_) fun _ => hm.indirectOnly levels m
  refine (Resolver.noFields_meets m).bind fun _ _ => ?_
  split
  · exact meets_pure (hm.scalar _ _ rfl)
  · exact meets_fail _ _

theorem memberValue : Meets True (r.memberValue levels f m mode) (Q (.member m)) := by
  refine meets_ite (fun _ => hm.nullValue m) fun _ => ?_
  refine meets_ite (fun _ => hm.indirectOnly levels m) fun _ => ?_
  split
  · exact hm.timestampValue levels m
  · exact hm.durationValue levels m
  · exact hm.indirectOnly levels m
  split
  · exact hm.boolValue levels m
  · exact hm.stringValue levels m
  · exact hm.bytesValue levels m
  · exact hm.enumValue levels m
  · exact hm.indirectOnly levels m
  · exact hm.indirectOnly levels m
  · exact hm.numericValue levels m

end Members

omit hm

/-! ## Calls and literals -/

/-- What the levels below make of comparables and groups is in the relations. -/
structure Below (Q : Comparable → Expr → Prop) (G : Expression → Expr → Prop)
    (inner : Resolver.Inner) : Prop where
  comparable : ∀ f c mode, Meets True (inner.comparable f c mode) (Q c)
  group : ∀ f e mode, Meets True (inner.group f e mode) (G e)
  dynamic : ∀ c mode, Meets True (inner.dynamic c mode) (Q c)

variable {inner : Resolver.Inner} (hi : Below Q G inner)

include hi

theorem Below.argValue (arg : Arg) :
    Meets True (Resolver.argValue inner f arg mode) (arg.Mirrored Q G) := by
  cases arg with
  | composite c => exact hi.group f c.expression mode
  | comparable c => exact hi.comparable f c mode

theorem Below.callArgs (s : Signature) (index : Nat) (args : List Arg) :
    Meets True (Resolver.callArgs inner s mode index args)
      (List.Forall₂ (Arg.Mirrored Q G) args) := by
  induction args generalizing index with
  | nil => exact meets_pure .nil
  | cons arg args ih =>
    rw [Resolver.callArgs]
    split
    · exact meets_throw (fun hfault => hfault trivial) _
    · exact (hi.argValue arg).bind fun e he => (ih _).bind fun es hes => meets_pure (.cons he hes)

theorem Below.dynamicEntries (seen : List String) (entries : List StructEntry) :
    Meets True (Resolver.dynamicEntries inner mode seen entries) fun pairs =>
      List.Forall₂ (StructEntry.KeysPair Q textKey) entries pairs ∧
        Fresh (fun key => .value (.string key)) seen (pairs.map Prod.fst) := by
  induction entries generalizing seen with
  | nil => exact meets_pure ⟨.nil, .nil _ _⟩
  | cons entry entries ih =>
    rw [Resolver.dynamicEntries]
    refine meets_ite (fun _ => meets_fail _ _) fun hnew => ?_
    refine (hi.dynamic entry.value mode).bind fun e he => (ih _).bind fun es hrest => ?_
    obtain ⟨hes, hfresh⟩ := hrest
    refine meets_pure ⟨.cons ⟨.string entry.name.unquoted, rfl, rfl, he⟩ hes, ?_⟩
    exact hfresh.cons (fun key key' h => by cases h; rfl) (by simpa using hnew)

theorem Below.mapEntries (key value : Field) (seen : List MapKey) (entries : List StructEntry) :
    Meets True (Resolver.mapEntries inner key value mode seen entries) fun pairs =>
      List.Forall₂ (StructEntry.KeysPair Q key) entries pairs ∧
        Fresh (fun k => .value (MapKey.toValue k)) seen (pairs.map Prod.fst) := by
  induction entries generalizing seen with
  | nil => exact meets_pure ⟨.nil, .nil _ _⟩
  | cons entry entries ih =>
    rw [Resolver.mapEntries]
    refine (mapKey_keyAs? key entry.name).bind fun k hk => ?_
    refine meets_ite (fun _ => meets_fail _ _) fun hnew => ?_
    refine (hi.comparable value entry.value mode).bind fun e he => ?_
    refine (ih _).bind fun es hrest => ?_
    obtain ⟨hes, hfresh⟩ := hrest
    refine meets_pure ⟨.cons ⟨k, hk, rfl, he⟩ hes, ?_⟩
    exact hfresh.cons (fun k k' h => MapKey.toValue_inj (Expr.value.inj h)) (by simpa using hnew)

theorem Below.messageEntries (message : Message) (seen : List String)
    (entries : List StructEntry) :
    Meets True (Resolver.messageEntries inner message mode seen entries) fun fields =>
      List.Forall₂ (StructEntry.NamesField Q) entries fields ∧
        Fresh id seen (fields.map Prod.fst) := by
  induction entries generalizing seen with
  | nil => exact meets_pure ⟨.nil, .nil _ _⟩
  | cons entry entries ih =>
    rw [Resolver.messageEntries]
    split
    · exact meets_fail _ _
    refine meets_ite (fun _ => meets_fail _ _) fun hnew => ?_
    refine (hi.comparable _ entry.value _).bind fun e he => ?_
    refine (ih _).bind fun es hrest => ?_
    obtain ⟨hes, hfresh⟩ := hrest
    refine meets_pure ⟨.cons ⟨rfl, he⟩ hes, ?_⟩
    exact hfresh.cons Function.injective_id (by simpa using hnew)

theorem Below.instantEntries (w : WellKnown) (message : Message) (seconds nanos : Option Int)
    (entries : List StructEntry) :
    Meets True (Resolver.instantEntries inner w message seconds nanos entries) fun _ => True := by
  induction entries generalizing seconds nanos with
  | nil => exact meets_pure trivial
  | cons entry entries ih =>
    rw [Resolver.instantEntries]
    refine meets_ite (fun _ => meets_fail _ _) fun _ => ?_
    refine meets_ite (fun _ => meets_fail _ _) fun _ => ?_
    split
    · exact meets_throw (fun hfault => hfault trivial) _
    refine (hi.comparable _ entry.value _).bind fun e _ => ?_
    split
    · exact meets_ite (fun _ => ih _ _) fun _ => ih _ _
    · exact meets_fail _ _

theorem Below.instant (s : StructLiteral) (w : WellKnown) :
    Meets True (r.instant inner f s w) fun _ => True := by
  refine (Resolver.checkStructName_meets s _ _).bind fun _ _ => ?_
  split
  · exact meets_throw (fun hfault => hfault trivial) _
  · exact hi.instantEntries w _ none none s.entries

include hm

theorem callOf (hr : r.Ready True) (c : Call) (target : Option Field) :
    Meets True (r.call inner c target mode) (Q (.call c)) := by
  unfold Resolver.call
  rw [hr.hooks.callHooks]
  change Meets True (r.plainCall inner c _ target mode) _
  unfold Resolver.plainCall
  split
  · exact meets_fail _ _
  rename_i s hs
  refine meets_ite (fun _ => meets_fail _ _) fun _ => ?_
  refine (hi.callArgs s 0 c.args).bind fun es hes => ?_
  have hcall := hm.call c s es hs hes
  dsimp only
  split
  · exact meets_ite (fun _ => meets_pure hcall) fun _ => meets_fail _ _
  · exact meets_pure hcall

theorem callValue (hr : r.Ready True) (c : Call) (target : Option Field) :
    Meets True (r.callValue inner c target mode) (Q (.call c)) := by
  refine (hm.callOf hi hr c target).bind fun e he => ?_
  exact meets_ite (fun _ => meets_fail _ _) fun _ => meets_pure he

theorem dynamicMap (s : StructLiteral) :
    Meets True (Resolver.dynamicMap inner s mode) (Q (.struct s)) := by
  refine (Resolver.checkStructName_meets s _ _).bind fun _ _ => ?_
  exact (hi.dynamicEntries [] s.entries).bind fun es ⟨hes, hfresh⟩ =>
    meets_pure (hm.map s textKey es hes hfresh.nodup)

theorem structValue (s : StructLiteral) :
    Meets True (r.structValue inner f s mode) (Q (.struct s)) := by
  refine meets_ite (fun _ => ?_) fun _ => ?_
  · refine meets_ite (fun _ => meets_fail _ _) fun _ => ?_
    split
    · exact meets_throw (fun hfault => hfault trivial) _
    · exact meets_throw (fun hfault => hfault trivial) _
    · exact (hi.mapEntries _ _ [] s.entries).bind fun es ⟨hes, hfresh⟩ =>
        meets_pure (hm.map s _ es hes hfresh.nodup)
  split
  · refine (hi.instant s .timestamp).bind fun x _ => ?_
    dsimp only
    split
    · exact meets_pure (hm.scalar _ _ rfl)
    · exact meets_fail _ _
  · refine (hi.instant s .duration).bind fun x _ => ?_
    dsimp only
    split
    · exact meets_pure (hm.scalar _ _ rfl)
    · exact meets_fail _ _
  · exact hm.dynamicMap hi s
  · exact hi.dynamic (.struct s) mode
  refine meets_ite (fun _ => ?_) fun _ => meets_fail _ _
  unfold Resolver.messageStruct
  split
  · exact meets_throw (fun hfault => hfault trivial) _
  refine (Resolver.checkStructName_meets s _ _).bind fun _ _ => ?_
  exact (hi.messageEntries _ [] s.entries).bind fun es ⟨hes, hfresh⟩ =>
    meets_pure (hm.message s _ es hes hfresh.nodup)

theorem comparableBody (hr : r.Ready True) (levels : Nat) (c : Comparable) :
    Meets True (r.comparableBody levels inner f c mode) (Q c) := by
  cases c with
  | array a =>
    refine meets_ite (fun _ => meets_fail _ _) fun _ => ?_
    refine (meets_mapM_forall₂ (fun e => hi.comparable f e mode) a.elements).bind fun es hes => ?_
    exact meets_pure (hm.array a es hes)
  | call c => exact hm.callValue hi hr c (some f)
  | struct s => exact hm.structValue hi s
  | member m => exact meets_ite (fun _ => hi.dynamic _ mode) fun _ => hm.memberValue levels m

theorem dynamicBody (hr : r.Ready True) (c : Comparable) :
    Meets True (r.dynamicBody inner c mode) (Q c) := by
  cases c with
  | member m =>
    refine hm.noFields m ?_
    unfold Resolver.dynamicLeaf
    split <;> first | rfl | (split <;> rfl)
  | struct s => exact hm.dynamicMap hi s
  | array a =>
    refine (meets_mapM_forall₂ (fun e => hi.dynamic e mode) a.elements).bind fun es hes => ?_
    exact meets_pure (hm.array a es hes)
  | call c => exact hm.callValue hi hr c none

theorem groupBody (e : Expression) : Meets True (Resolver.groupBody inner f e mode) (G e) := by
  suffices h : Meets True (Resolver.groupBody inner f e mode)
      (e.Assembled (Simple.Mirrored Q G)) from h.mono fun x hx => hm.group e x hx
  refine Meets.map _ (meets_mapM_forall₂ (fun s => ?_) e.sequences) fun es hes => ⟨es, hes, rfl⟩
  refine Meets.map _ (meets_mapM_forall₂ (fun x => ?_) s.factors) fun es hes => ⟨es, hes, rfl⟩
  refine Meets.map _ (meets_mapM_forall₂ (fun t => ?_) x.terms) fun es hes => ⟨es, hes, rfl⟩
  have hsigned (x : Expr) (hx : t.simple.Mirrored Q G x) : Meets True
      (pure (if t.unary.isSome = true then .not x else x)) (t.Assembled (Simple.Mirrored Q G)) :=
    meets_pure ⟨x, hx, rfl⟩
  dsimp only
  split
  · rename_i c hc
    rw [hc] at hsigned
    exact (hi.group f _ mode).bind hsigned
  · rename_i y hy
    rw [hy] at hsigned
    split
    · exact (meets_fail _ _).bind hsigned
    · rename_i hnone
      exact (hi.comparable f _ mode).bind fun x hx => hsigned x ⟨hnone, hx⟩

omit hi in
theorem innerAt (hr : r.Ready True) (levels : Nat) : Below Q G (r.innerAt levels) := by
  induction levels with
  | zero =>
    refine ⟨fun f c mode => ?_, fun f e mode => ?_, fun c mode => ?_⟩
    · simp only [Resolver.innerAt, Resolver.comparableValue]
      exact meets_fail _ _
    · simp only [Resolver.innerAt, Resolver.groupValue]
      exact meets_fail _ _
    · simp only [Resolver.innerAt, Resolver.dynamicValue]
      exact meets_fail _ _
  | succ levels ih =>
    refine ⟨fun f c mode => ?_, fun f e mode => ?_, fun c mode => ?_⟩
    · simp only [Resolver.innerAt, Resolver.comparableValue]
      exact hm.comparableBody ih hr levels c
    · simp only [Resolver.innerAt, Resolver.groupValue]
      exact hm.groupBody ih e
    · simp only [Resolver.innerAt, Resolver.dynamicValue]
      exact hm.dynamicBody ih hr c

omit hi

theorem alone (hr : r.Ready True) (levels : Nat) (c : Comparable) :
    Meets True (r.alone levels c) (Q c) := by
  cases c with
  | member m =>
    refine meets_ite (fun _ => ?_) fun _ => meets_pure (hm.scalar _ _ rfl)
    exact (hm.selectRoot levels m).bind fun x hx => meets_pure hx
  | call c => exact hm.callOf (hm.innerAt hr levels) hr c none
  | struct s => exact meets_fail _ _
  | array a => exact meets_fail _ _

theorem leftSide (hr : r.Ready True) (levels : Nat) (c : Comparable) :
    Meets True (r.leftSide levels c) fun x => Q c x.1 := by
  cases c with
  | member m =>
    exact (hm.selectRoot levels m).bind fun x hx => meets_pure hx
  | call c =>
    unfold Resolver.leftSide
    dsimp only
    split
    · exact meets_fail _ _
    · exact (hm.callOf (hm.innerAt hr levels) hr c none).bind fun e he => meets_pure he
  | struct s => exact meets_fail _ _
  | array a => exact meets_fail _ _

theorem rightSide (hr : r.Ready True) (levels : Nat) (target : Field) (c : Comparison) :
    Meets True (r.rightSide levels target c) (c.arg.Mirrored Q G) := by
  have hi := hm.innerAt hr levels
  unfold Resolver.rightSide
  dsimp only
  split
  · refine meets_ite (fun _ => ?_) fun _ => hi.argValue c.arg
    split
    · exact meets_throw (fun hfault => hfault trivial) _
    · exact hi.argValue c.arg
  · refine (hi.argValue c.arg).bind fun e he => ?_
    have haccept (accepted : Bool) (_ : True) : Meets True
        (if accepted = true then pure e else Resolve.fail c.pos .needsArray)
        (c.arg.Mirrored Q G) := meets_ite (fun _ => meets_pure he) fun _ => meets_fail _ _
    split
    · exact (meets_pure trivial).bind haccept
    · exact (meets_pure trivial).bind haccept
    · exact (Resolver.namesRepeated_meets hr levels c.arg).bind haccept
    · exact (meets_pure trivial).bind haccept
  · exact hi.argValue c.arg

/-- What a restriction resolves to mirrors it. -/
theorem restriction (hr : r.Ready True) (levels : Nat) (x : Restriction) :
    Meets True (r.restriction levels x) (x.Mirrored Q G) := by
  obtain ⟨span, comparable, comparison⟩ := x
  cases comparison with
  | none => exact hm.alone hr levels comparable
  | some c =>
    refine (hm.leftSide hr levels comparable).bind fun y hy => ?_
    dsimp only
    rw [Resolver.hooked_eq_none hr.hooks, pure_bind]
    refine (hm.rightSide hr levels y.2 c).bind fun right hright => ?_
    exact meets_pure ⟨y.1, right, rfl, hy, hright⟩

section Whole

variable {H : Expression → Expr → Prop}
  (hH : ∀ x e, x.Assembled (Simple.Resolved Q G H) e → H x e)

include hH

theorem expressionBody (hr : r.Ready True) (levels : Nat) {inner : Expression → Resolve Expr}
    (hi : ∀ x, Meets True (inner x) (H x)) (x : Expression) :
    Meets True (r.expressionBody levels inner x) (H x) := by
  suffices h : Meets True (r.expressionBody levels inner x)
      (x.Assembled (Simple.Resolved Q G H)) from h.mono fun e he => hH x e he
  refine Meets.map _ (meets_mapM_forall₂ (fun s => ?_) x.sequences) fun es hes => ⟨es, hes, rfl⟩
  refine Meets.map _ (meets_mapM_forall₂ (fun f => ?_) s.factors) fun es hes => ⟨es, hes, rfl⟩
  refine Meets.map _ (meets_mapM_forall₂ (fun t => ?_) f.terms) fun es hes => ⟨es, hes, rfl⟩
  obtain ⟨span, unary, simple, orPos⟩ := t
  cases simple with
  | composite c => exact Meets.map _ (hi c.expression) fun e he => ⟨e, he, rfl⟩
  | restriction y => exact Meets.map _ (hm.restriction hr levels y) fun e he => ⟨e, he, rfl⟩

/-- What a tree resolves to is put together from what its restrictions resolve to. -/
theorem expression (hr : r.Ready True) (levels : Nat) (x : Expression) :
    Meets True (r.expression levels x) (H x) := by
  induction levels generalizing x with
  | zero =>
    simp only [Resolver.expression]
    exact meets_fail _ _
  | succ levels ih =>
    simp only [Resolver.expression]
    exact hm.expressionBody hH hr levels ih x

/-- A filter that has been read is empty, or it resolves to what its tree is related to. -/
theorem resolve (hhooks : r.options.HookFree) {before store : Store} {o : ParserOptions}
    {input : String} (hparse : before.reparse o input = .ok store) {filter : ResolvedFilter}
    {reports : List (Report ValueCause)} (h : (r.resolve store).run = (.ok filter, reports)) :
    (store.tree? = none ∧ filter = {}) ∨
      ∃ tree e, parse o input = .ok (some tree) ∧ store.tree? = some tree ∧
        filter = ⟨some e, e.complexity⟩ ∧ H tree e := by
  obtain ⟨x, hx, rfl⟩ := Store.reparse_ok.1 hparse
  rw [Resolver.resolve_load] at h
  rw [Store.tree?_load]
  cases x with
  | none =>
    cases h
    exact .inl ⟨rfl, rfl⟩
  | some tree =>
    have hr : r.Ready True := ⟨hhooks, fun hfault => absurd trivial hfault⟩
    have hmeets : Meets True (r.resolveTree (some tree))
        fun filter => ∃ e, filter = ⟨some e, e.complexity⟩ ∧ H tree e := by
      rw [Resolver.resolveTree_some]
      exact (hm.expression hH hr _ tree).bind fun e he => meets_pure ⟨e, rfl, he⟩
    obtain ⟨e, rfl, he⟩ := Resolver.of_run_eq_ok hmeets h
    exact .inr ⟨tree, e, hx, rfl, rfl, he⟩

end Whole

end Mirror

end ListQuery.Filter
