/-
Allowing fields in place of values is safe. A filter that resolves without them resolves with them,
given one level more, and the two expressions are put together alike (`Expression.Both`). They
differ only in bare words in places for texts or bytes: a word that names a field of the root
message has become that field (`Comparable.Refers`). Main statement:
`Resolver.resolve_withIndirect`.
-/
import ListQuery.Proofs.Resolve.Filters
import ListQuery.Proofs.Resolve.Levels

namespace ListQuery.Filter

/-- Items of three lists of one length, related one by one. -/
inductive Forall₃ {α β γ : Type} (R : α → β → γ → Prop) : List α → List β → List γ → Prop
  | nil : Forall₃ R [] [] []
  | cons {x a b xs as bs} (h : R x a b) (rest : Forall₃ R xs as bs) :
    Forall₃ R (x :: xs) (a :: as) (b :: bs)

theorem Forall₃.eq {α β : Type} {xs : List α} {as bs : List β}
    (h : Forall₃ (fun _ a b => a = b) xs as bs) : as = bs := by
  induction h with
  | nil => rfl
  | cons h _ ih => rw [h, ih]

/-- The field of the root message that a member names, if it is a bare word. -/
def Resolver.wordField? (r : Resolver) (m : Member) : Option Field :=
  if m.value.isIdentifier && m.fields.isEmpty then r.root.field? m.value.unquoted else none

/-- A place for a text or for bytes, which bare words stand for as well. -/
def takesWords (f : Field) : Bool := !f.isMap && (f.kind == .string || f.kind == .bytes)

mutual

/-- A comparable as a value of a field without and with fields in place of values. -/
inductive Comparable.Refers (r : Resolver) : Field → Comparable → Expr → Expr → Prop
  /-- A word that names a field has been a text. -/
  | text {f g : Field} {m : Member} (hf : takesWords f = true) (hg : r.wordField? m = some g) :
    Comparable.Refers r f (.member m) (.value (.string m.value.unquoted)) (.field ⟨.ofField g, []⟩)
  /-- A word that names a field has been bytes. -/
  | bytes {f g : Field} {m : Member} {bs : List UInt8} (hf : takesWords f = true)
    (hg : r.wordField? m = some g) (hbs : m.value.bytes? = some bs) :
    Comparable.Refers r f (.member m) (.value (.bytes bs)) (.field ⟨.ofField g, []⟩)
  /-- Whatever else is written as a value is that value. -/
  | value {f : Field} {m : Member} {v : Value}
    (h : takesWords f = false ∨ r.wordField? m = none) :
    Comparable.Refers r f (.member m) (.value v) (.value v)
  | array {f : Field} {a : ArrayLiteral} {es es' : List Expr}
    (h : elementsRefer r f a.elements es es') :
    Comparable.Refers r f (.array a) (.array es) (.array es')
  /-- Keys of maps are the same. -/
  | map {f value : Field} {s : StructLiteral} {pairs pairs' : List (Expr × Expr)}
    (hf : f.isMap = true ∧ f.mapValue = some value)
    (hkeys : pairs'.map Prod.fst = pairs.map Prod.fst)
    (h : entriesRefer r (fun _ => some value) s.entries (pairs.map Prod.snd)
      (pairs'.map Prod.snd)) :
    Comparable.Refers r f (.struct s) (.map pairs) (.map pairs')
  | message {f : Field} {s : StructLiteral} {message : Message}
    {fields fields' : List (String × Expr)}
    (hf : r.schema.wellKnownOf? f = none ∧ r.schema.messageOf? f = some message)
    (hnames : fields'.map Prod.fst = fields.map Prod.fst)
    (h : entriesRefer r (fun name => message.field? name.unquoted) s.entries
      (fields.map Prod.snd) (fields'.map Prod.snd)) :
    Comparable.Refers r f (.struct s) (.value (.message message.fullName fields))
      (.value (.message message.fullName fields'))
  /-- Timestamps, durations and values of any type are the same. -/
  | wellKnown {f : Field} {c : Comparable} {e : Expr}
    (hf : (r.schema.wellKnownOf? f).isSome = true) : Comparable.Refers r f c e e

inductive elementsRefer (r : Resolver) : Field → List Comparable → List Expr → List Expr → Prop
  | nil {f : Field} : elementsRefer r f [] [] []
  | cons {f : Field} {c : Comparable} {cs : List Comparable} {e e' : Expr} {es es' : List Expr}
    (h : Comparable.Refers r f c e e') (rest : elementsRefer r f cs es es') :
    elementsRefer r f (c :: cs) (e :: es) (e' :: es')

/-- The same for the entries of a literal, each with the field that its name leads to. -/
inductive entriesRefer (r : Resolver) :
    (Leaf → Option Field) → List StructEntry → List Expr → List Expr → Prop
  | nil {g : Leaf → Option Field} : entriesRefer r g [] [] []
  | cons {g : Leaf → Option Field} {f : Field} {x : StructEntry} {xs : List StructEntry}
    {e e' : Expr} {es es' : List Expr} (hf : g x.name = some f)
    (h : Comparable.Refers r f x.value e e') (rest : entriesRefer r g xs es es') :
    entriesRefer r g (x :: xs) (e :: es) (e' :: es')

end

/-! ## What becomes of whole filters -/

/-- Negated by a term or not. -/
def Term.signed (t : Term) (e : Expr) : Expr := if t.unary.isSome = true then .not e else e

section Both

mutual

/-- Two expressions put together as a tree is, from expressions for its restrictions that are
related one by one. -/
inductive Expression.Both (L : Restriction → Expr → Expr → Prop) : Expression → Expr → Expr → Prop
  | of {x : Expression} {es es' : List Expr} (h : Forall₃ (Sequence.Both L) x.sequences es es') :
    Expression.Both L x (.conjunction es) (.conjunction es')

inductive Sequence.Both (L : Restriction → Expr → Expr → Prop) : Sequence → Expr → Expr → Prop
  | of {s : Sequence} {es es' : List Expr} (h : Forall₃ (Factor.Both L) s.factors es es') :
    Sequence.Both L s (.conjunction es) (.conjunction es')

inductive Factor.Both (L : Restriction → Expr → Expr → Prop) : Factor → Expr → Expr → Prop
  | of {f : Factor} {es es' : List Expr} (h : Forall₃ (Term.Both L) f.terms es es') :
    Factor.Both L f (.disjunction es) (.disjunction es')

inductive Term.Both (L : Restriction → Expr → Expr → Prop) : Term → Expr → Expr → Prop
  | group {t : Term} {c : Composite} {e e' : Expr} (ht : t.simple = .composite c)
    (h : Expression.Both L c.expression e e') : Term.Both L t (t.signed e) (t.signed e')
  | restriction {t : Term} {x : Restriction} {e e' : Expr} (ht : t.simple = .restriction x)
    (h : L x e e') : Term.Both L t (t.signed e) (t.signed e')

end

end Both

/-- If the first is an array, so is the second. -/
def Expr.KeepsArray (e e' : Expr) : Prop := ∀ items, e = .array items → ∃ items', e' = .array items'

theorem keepsArray_conjunction {α : Type} {xs : List α} {es es' : List Expr}
    (h : Forall₃ (fun _ => Expr.KeepsArray) xs es es') :
    Expr.KeepsArray (.conjunction es) (.conjunction es') := by
  rcases h with _ | ⟨h, _ | ⟨_, _⟩⟩
  · intro items hitems
    cases hitems
  · exact h
  · intro items hitems
    cases hitems

theorem keepsArray_disjunction {α : Type} {xs : List α} {es es' : List Expr}
    (h : Forall₃ (fun _ => Expr.KeepsArray) xs es es') :
    Expr.KeepsArray (.disjunction es) (.disjunction es') := by
  rcases h with _ | ⟨h, _ | ⟨_, _⟩⟩
  · intro items hitems
    cases hitems
  · exact h
  · intro items hitems
    cases hitems

theorem keepsArray_signed (t : Term) {e e' : Expr} (h : e.KeepsArray e') :
    (t.signed e).KeepsArray (t.signed e') := by
  unfold Term.signed
  split
  · intro items hitems
    cases hitems
  · exact h

/-- Only one restriction in parentheses comes to an array, and then it does so on both sides. -/
theorem Expression.Both.keepsArray {L : Restriction → Expr → Expr → Prop}
    (hL : ∀ x e e', L x e e' → e.KeepsArray e') {x : Expression} {e e' : Expr} (h : x.Both L e e') :
    e.KeepsArray e' :=
  @Expression.Both.rec L (fun _ e e' _ => e.KeepsArray e') (fun _ e e' _ => e.KeepsArray e')
    (fun _ e e' _ => e.KeepsArray e') (fun _ e e' _ => e.KeepsArray e')
    (fun xs es es' _ => Forall₃ (fun _ => Expr.KeepsArray) xs es es')
    (fun xs es es' _ => Forall₃ (fun _ => Expr.KeepsArray) xs es es')
    (fun xs es es' _ => Forall₃ (fun _ => Expr.KeepsArray) xs es es')
    (fun _ ih => keepsArray_conjunction ih) (fun _ ih => keepsArray_conjunction ih)
    (fun _ ih => keepsArray_disjunction ih) (fun _ _ ih => keepsArray_signed _ ih)
    (fun _ h => keepsArray_signed _ (hL _ _ _ h)) .nil (fun _ _ ih ihs => .cons ih ihs)
    .nil (fun _ _ ih ihs => .cons ih ihs) .nil (fun _ _ ih ihs => .cons ih ihs) x e e' h

/-- A group of values of a field, in which nothing is compared. -/
def Expression.Refers (r : Resolver) (f : Field) (x : Expression) : Expr → Expr → Prop :=
  x.Both fun y e e' => y.comparison = none ∧ y.comparable.Refers r f e e'

/-- An argument as a value of a field. -/
def Arg.Refers (r : Resolver) (f : Field) : Arg → Expr → Expr → Prop
  | .comparable c => c.Refers r f
  | .composite c => c.expression.Refers r f

theorem Comparable.Refers.keepsArray {r : Resolver} {f : Field} {c : Comparable} {e e' : Expr}
    (h : c.Refers r f e e') : e.KeepsArray e' := by
  rintro items rfl
  cases h with
  | array _ => exact ⟨_, rfl⟩
  | wellKnown _ => exact ⟨_, rfl⟩

theorem Arg.Refers.keepsArray {r : Resolver} {f : Field} {arg : Arg} {e e' : Expr}
    (h : arg.Refers r f e e') : e.KeepsArray e' := by
  cases arg with
  | comparable c => exact Comparable.Refers.keepsArray h
  | composite c => exact Expression.Both.keepsArray (fun _ _ _ h => h.2.keepsArray) h

/-- The field that describes the values of a left side. -/
def Resolver.leftField? (r : Resolver) : Comparable → Expr → Option Field
  | .call c, _ => (r.options.function? (joinPath .unquoted c.name)).bind Signature.result
  | _, .field x => fieldAt? r.schema r.root x
  | _, _ => none

/-- The field whose values a comparator takes on its right: a map is asked for its keys. -/
def operandOf? (target : Field) (c : Comparator) : Option Field :=
  if c = .has ∧ target.isMap = true then target.mapKey else some target

/-- A restriction: what stands alone or on the left is the same, and so is the comparator. -/
inductive Restriction.Refers (r : Resolver) : Restriction → Expr → Expr → Prop
  | alone {x : Restriction} {e : Expr} (hx : x.comparison = none) : Restriction.Refers r x e e
  | compare {x : Restriction} {c : Comparison} {left right right' : Expr} {target f : Field}
    (hx : x.comparison = some c) (hleft : r.leftField? x.comparable left = some target)
    (hf : operandOf? target c.comparator = some f) (h : c.arg.Refers r f right right') :
    Restriction.Refers r x (.compare left c.comparator right) (.compare left c.comparator right')

namespace Resolve

variable {α β α' β' γ : Type} {R : α → α' → Prop} {S : β → β' → Prop}

/-- Whatever value the first step gives, the second gives one that is related to it. -/
def Refines (R : α → α' → Prop) (x : Resolve α) (y : Resolve α') : Prop :=
  ∀ s a s', x s = .ok a s' → ∃ b, y s = .ok b s' ∧ R a b

theorem Within.refl (x : Resolve α) : Within x x := fun _ _ _ h => h

theorem Within.refines {x y : Resolve α} (h : Within x y) : Refines Eq x y :=
  fun s a s' ha => ⟨a, h s a s' ha, rfl⟩

/-- What the first step meets holds of its value. -/
theorem Refines.meets {x : Resolve α} {y : Resolve α'} {Q : α → Prop} (h : Refines R x y)
    (hq : Meets True x Q) : Refines (fun a b => R a b ∧ Q a) x y := by
  intro s a s' ha
  obtain ⟨b, hb, hab⟩ := h s a s' ha
  have hs := hq s
  rw [ha] at hs
  cases hs with
  | value hq => exact ⟨b, hb, hab, hq⟩

theorem Refines.mono {R' : α → α' → Prop} {x : Resolve α} {y : Resolve α'} (h : Refines R x y)
    (hr : ∀ a b, R a b → R' a b) : Refines R' x y := by
  intro s a s' ha
  obtain ⟨b, hb, hab⟩ := h s a s' ha
  exact ⟨b, hb, hr a b hab⟩

theorem refines_pure {a : α} {b : α'} (h : R a b) : Refines R (pure a) (pure b) := by
  rintro s a s' ⟨⟩
  exact ⟨b, rfl, h⟩

/-- Nothing follows from a failure. -/
theorem refines_fail (pos : Position) (cause : ValueCause) (y : Resolve α') :
    Refines R (fail pos cause) y := by
  rintro s a s' ⟨⟩

theorem refines_throw (e : FilterError) (y : Resolve α') :
    Refines R (throw e : Resolve α) y := by
  rintro s a s' ⟨⟩

theorem Refines.bind {x : Resolve α} {y : Resolve α'} {f : α → Resolve β} {g : α' → Resolve β'}
    (hx : Refines R x y) (hf : ∀ a b, R a b → Refines S (f a) (g b)) :
    Refines S (x >>= f) (y >>= g) := by
  intro s c s' hc
  obtain ⟨a, s₁, ha, hc⟩ := bind_ok.1 hc
  obtain ⟨b, hb, hab⟩ := hx s a s₁ ha
  obtain ⟨d, hd, hcd⟩ := hf a b hab s₁ c s' hc
  exact ⟨d, bind_ok.2 ⟨b, s₁, hb, hd⟩, hcd⟩

/-- Both runs begin with the same step. -/
theorem refines_step {x : Resolve α} {f : α → Resolve β} {g : α → Resolve β'}
    (hf : ∀ a, Refines S (f a) (g a)) : Refines S (x >>= f) (x >>= g) :=
  (Within.refl x).refines.bind fun a _ hab => hab ▸ hf a

theorem refines_ite {c : Prop} [Decidable c] {x y : Resolve α} {x' y' : Resolve α'}
    (hx : c → Refines R x x') (hy : ¬c → Refines R y y') :
    Refines R (if c then x else y) (if c then x' else y') := by
  split
  · exact hx ‹_›
  · exact hy ‹_›

theorem refines_mapM {P : γ → α → α' → Prop} {f : γ → Resolve α} {g : γ → Resolve α'}
    (h : ∀ x, Refines (P x) (f x) (g x)) :
    ∀ xs : List γ, Refines (Forall₃ P xs) (xs.mapM f) (xs.mapM g)
  | [] => refines_pure .nil
  | x :: xs => by
    rw [List.mapM_cons, List.mapM_cons]
    refine (h x).bind fun a b hab => (refines_mapM h xs).bind fun as bs habs => ?_
    exact refines_pure (.cons hab habs)

end Resolve

open Resolve

namespace Resolver

variable {r : Resolver} {depth levels levels' : Nat} {optional : Bool}

/-! ## Members -/

section Members

variable (f : Field) (m : Member)

/-- Where fields may not stand, a value that only a field could be is none. -/
theorem indirectOnly_refines {R : Expr → Expr → Prop} (y : Resolve Expr) :
    Refines R (r.indirectOnly levels f m ⟨false, optional⟩) y := by
  unfold indirectOnly
  split
  · exact refines_fail _ _ y
  · exact refines_fail _ _ y

theorem wordField?_eq_none {m : Member} (h : m.value.isIdentifier = false) :
    r.wordField? m = none := by
  rw [wordField?, h]
  rfl

/-- A word that names a field of the root message stands for it, one level down. -/
theorem indirect_word {m : Member} {g : Field} (hg : r.wordField? m = some g) :
    (r.withLimits true depth).indirect (levels + 1) m ⟨true, optional⟩ =
      pure (.field ⟨.ofField g, []⟩) := by
  obtain ⟨span, value, fields⟩ := m
  simp only [wordField?, Option.ite_none_right_eq_some, Bool.and_eq_true, List.isEmpty_iff] at hg
  obtain ⟨⟨hword, rfl⟩, hfield⟩ := hg
  simp [indirect, selectRoot, select, Member.path, hword, hfield]

/-- A member taken as it is written becomes the field that it names, if it names one. -/
theorem word_refines (h : levels < levels') {R : Expr → Expr → Prop} {x : Resolve Expr}
    (hword : ∀ g, r.wordField? m = some g → Refines R x (pure (.field ⟨.ofField g, []⟩)))
    (hother : r.wordField? m = none → Refines R x x) :
    Refines R (do noFields m; x)
      (if (r.withLimits true depth).namesField m ⟨true, optional⟩ then
        (r.withLimits true depth).indirect levels' m ⟨true, optional⟩
      else do noFields m; x) := by
  obtain ⟨levels', rfl⟩ : ∃ k, levels' = k + 1 := ⟨levels' - 1, by omega⟩
  cases hfields : m.fields with
  | cons extra fields =>
    simp only [noFields, hfields]
    exact refines_fail _ _ _
  | nil =>
    have hnone : noFields m = pure () := by simp only [noFields, hfields]
    have hnames : (r.withLimits true depth).namesField m ⟨true, optional⟩ =
        (r.wordField? m).isSome := by
      simp only [namesField, wordField?, hfields, withLimits_root]
      cases m.value.isIdentifier <;> rfl
    rw [hnone, pure_bind, hnames]
    cases hg : r.wordField? m with
    | none => exact hother hg
    | some g =>
      rw [indirect_word hg]
      exact hword g hg

/-- A value of a member in a place that is not for words. -/
theorem noFields_refines {v : Value} (hv : takesWords f = false ∨ r.wordField? m = none) :
    Refines (Comparable.Refers r f (.member m)) (do noFields m; return .value v)
      (do noFields m; return .value v) :=
  refines_step fun _ => refines_pure (.value hv)

variable {f}

theorem numericValue_refines (hf : takesWords f = false) :
    Refines (Comparable.Refers r f (.member m)) (r.numericValue levels f m ⟨false, optional⟩)
      ((r.withLimits true depth).numericValue levels' f m ⟨true, optional⟩) := by
  refine refines_ite (fun _ => ?_) fun _ => indirectOnly_refines f m _
  refine refines_step fun _ => refines_ite (fun _ => ?_) fun _ => ?_
  · exact refines_step fun x => refines_pure (.value (.inl hf))
  · exact refines_step fun k => refines_pure (.value (.inl hf))

theorem boolValue_refines (hf : takesWords f = false) :
    Refines (Comparable.Refers r f (.member m)) (r.boolValue levels f m ⟨false, optional⟩)
      ((r.withLimits true depth).boolValue levels' f m ⟨true, optional⟩) :=
  refines_ite (fun _ => noFields_refines f m (.inl hf)) fun _ => indirectOnly_refines f m _

theorem stringValue_refines (h : levels < levels') (hf : takesWords f = true) :
    Refines (Comparable.Refers r f (.member m)) (r.stringValue levels m ⟨false, optional⟩)
      ((r.withLimits true depth).stringValue levels' m ⟨true, optional⟩) :=
  word_refines m h (fun _ hg => refines_pure (.text hf hg)) fun hg =>
    refines_pure (.value (.inr hg))

theorem bytesValue_refines (h : levels < levels') (hf : takesWords f = true) :
    Refines (Comparable.Refers r f (.member m)) (r.bytesValue levels f m ⟨false, optional⟩)
      ((r.withLimits true depth).bytesValue levels' f m ⟨true, optional⟩) := by
  refine word_refines m h (fun g hg => ?_) fun hg => ?_
  · split
    · exact refines_pure (.bytes hf hg ‹_›)
    · exact refines_fail _ _ _
  · split
    · exact refines_pure (.value (.inr hg))
    · exact refines_fail _ _ _

/-- A value of the enum comes first, and without fields there is nothing else. -/
theorem enumValue_refines (hf : takesWords f = false) :
    Refines (Comparable.Refers r f (.member m)) (r.enumValue levels f m ⟨false, optional⟩)
      ((r.withLimits true depth).enumValue levels' f m ⟨true, optional⟩) := by
  refine refines_ite (fun _ => ?_) fun _ => refines_fail _ _ _
  rw [withLimits_schema]
  split
  · exact noFields_refines f m (.inl hf)
  · exact refines_fail _ _ _

theorem timestampValue_refines (hf : takesWords f = false) :
    Refines (Comparable.Refers r f (.member m)) (r.timestampValue levels f m ⟨false, optional⟩)
      ((r.withLimits true depth).timestampValue levels' f m ⟨true, optional⟩) := by
  refine refines_ite (fun _ => refines_step fun _ => ?_) fun _ => indirectOnly_refines f m _
  split
  · exact refines_pure (.value (.inl hf))
  · exact refines_fail _ _ _

theorem durationValue_refines (hf : takesWords f = false) :
    Refines (Comparable.Refers r f (.member m)) (r.durationValue levels f m ⟨false, optional⟩)
      ((r.withLimits true depth).durationValue levels' f m ⟨true, optional⟩) := by
  refine refines_ite (fun _ => refines_step fun _ => ?_) fun _ => indirectOnly_refines f m _
  split
  · exact refines_pure (.value (.inl hf))
  · exact refines_fail _ _ _

theorem takesWords_eq_false (hstring : f.kind ≠ .string) (hbytes : f.kind ≠ .bytes) :
    takesWords f = false := by
  simp [takesWords, hstring, hbytes]

theorem takesWords_of_wellKnownOf? {w : WellKnown} (h : r.schema.wellKnownOf? f = some w) :
    takesWords f = false := by
  have hscalar (hkind : f.kind.isMessage = false) : False := by
    rw [wellKnownOf?_eq_none hkind] at h
    cases h
  exact takesWords_eq_false (fun hkind => hscalar (by rw [hkind]; rfl))
    fun hkind => hscalar (by rw [hkind]; rfl)

theorem memberValue_refines (h : levels < levels') :
    Refines (Comparable.Refers r f (.member m)) (r.memberValue levels f m ⟨false, optional⟩)
      ((r.withLimits true depth).memberValue levels' f m ⟨true, optional⟩) := by
  unfold memberValue
  refine refines_ite (fun hnull => ?_) fun _ => refines_ite (fun hmap => ?_) fun hmap => ?_
  · have hword : r.wordField? m = none :=
      wordField?_eq_none (by simp [Leaf.isIdentifier, hnull, Kind.isKeyword])
    refine refines_step fun _ => ?_
    exact refines_ite (fun _ => refines_pure (.value (.inr hword))) fun _ => refines_fail _ _ _
  · exact indirectOnly_refines f m _
  rw [withLimits_schema]
  split
  · rename_i hw
    exact timestampValue_refines m (takesWords_of_wellKnownOf? hw)
  · rename_i hw
    exact durationValue_refines m (takesWords_of_wellKnownOf? hw)
  · exact indirectOnly_refines f m _
  split
  · rename_i hkind
    exact boolValue_refines m (takesWords_eq_false (by simp [hkind]) (by simp [hkind]))
  · rename_i hkind
    exact stringValue_refines m h (by simp [takesWords, hkind, hmap])
  · rename_i hkind
    exact bytesValue_refines m h (by simp [takesWords, hkind, hmap])
  · rename_i hkind
    exact enumValue_refines m (takesWords_eq_false (by simp [hkind]) (by simp [hkind]))
  · exact indirectOnly_refines f m _
  · exact indirectOnly_refines f m _
  · rename_i hstring hbytes _ _ _
    exact numericValue_refines m (takesWords_eq_false hstring hbytes)

end Members

/-! ## Calls and literals -/

/-- The second levels below allow fields where the first do not, and go on as they do elsewhere. -/
structure Inner.Refer (r : Resolver) (inner inner' : Inner) : Prop where
  comparable : ∀ f c optional, Refines (Comparable.Refers r f c)
    (inner.comparable f c ⟨false, optional⟩) (inner'.comparable f c ⟨true, optional⟩)
  group : ∀ f x optional, Refines (x.Refers r f)
    (inner.group f x ⟨false, optional⟩) (inner'.group f x ⟨true, optional⟩)
  dynamic : ∀ c optional,
    Refines Eq (inner.dynamic c ⟨false, optional⟩) (inner'.dynamic c ⟨true, optional⟩)
  deepen : inner.Deepen r inner'

variable {inner inner' : Inner}

theorem argValue_refines (hi : inner.Refer r inner') (f : Field) (arg : Arg) :
    Refines (arg.Refers r f) (argValue inner f arg ⟨false, optional⟩)
      (argValue inner' f arg ⟨true, optional⟩) := by
  cases arg with
  | composite c => exact hi.group f c.expression optional
  | comparable c => exact hi.comparable f c optional

/-- A call is resolved to a call. -/
theorem plainCall_isIndirect (c : Call) (name : String) (target : Option Field)
    (mode : ValueMode) :
    Refines (fun e _ => e.isIndirect = true) (r.plainCall inner c name target mode)
      (r.plainCall inner c name target mode) := by
  unfold plainCall
  split
  · exact refines_fail _ _ _
  refine refines_ite (fun _ => refines_fail _ _ _) fun _ => refines_step fun args => ?_
  dsimp only
  split
  · exact refines_ite (fun _ => refines_pure rfl) fun _ => refines_fail _ _ _
  · exact refines_pure rfl

/-- Where fields may not stand, no call may. -/
theorem callValue_refines (hhooks : r.options.HookFree) {R : Expr → Expr → Prop} (c : Call)
    (target : Option Field) (y : Resolve Expr) :
    Refines R (r.callValue inner c target ⟨false, optional⟩) y := by
  intro s e s' he
  obtain ⟨e₁, s₁, hcall, he⟩ := bind_ok.1 he
  have hindirect : e₁.isIndirect = true := by
    unfold call at hcall
    rw [hhooks.callHooks] at hcall
    obtain ⟨-, -, hcall⟩ := plainCall_isIndirect c _ target _ s e₁ s₁ hcall
    exact hcall
  rw [hindirect] at he
  cases he

theorem dynamicEntries_refines (hi : inner.Refer r inner') (seen : List String)
    (entries : List StructEntry) :
    Refines Eq (dynamicEntries inner ⟨false, optional⟩ seen entries)
      (dynamicEntries inner' ⟨true, optional⟩ seen entries) := by
  induction entries generalizing seen with
  | nil => exact refines_pure rfl
  | cons entry entries ih =>
    rw [dynamicEntries, dynamicEntries]
    refine refines_ite (fun _ => refines_fail _ _ _) fun _ => ?_
    refine (hi.dynamic entry.value optional).bind ?_
    rintro e _ rfl
    refine (ih _).bind ?_
    rintro es _ rfl
    exact refines_pure rfl

theorem dynamicMap_refines (hi : inner.Refer r inner') (s : StructLiteral) :
    Refines Eq (dynamicMap inner s ⟨false, optional⟩) (dynamicMap inner' s ⟨true, optional⟩) := by
  refine refines_step fun _ => (dynamicEntries_refines hi [] s.entries).bind ?_
  rintro es _ rfl
  exact refines_pure rfl

/-- Seconds and nanoseconds are always literals. -/
theorem instant_refines (hi : inner.Refer r inner') (f : Field) (s : StructLiteral)
    (w : WellKnown) :
    Refines Eq (r.instant inner f s w) ((r.withLimits true depth).instant inner' f s w) :=
  (instant_deepens hi.deepen f s w).within.refines

theorem messageEntries_refines (hi : inner.Refer r inner') (message : Message)
    (seen : List String) (entries : List StructEntry) :
    Refines
      (fun fields fields' => fields'.map Prod.fst = fields.map Prod.fst ∧
        entriesRefer r (fun name => message.field? name.unquoted) entries (fields.map Prod.snd)
          (fields'.map Prod.snd))
      (messageEntries inner message ⟨false, optional⟩ seen entries)
      (messageEntries inner' message ⟨true, optional⟩ seen entries) := by
  induction entries generalizing seen with
  | nil => exact refines_pure ⟨rfl, .nil⟩
  | cons entry entries ih =>
    rw [messageEntries, messageEntries]
    split
    · exact refines_fail _ _ _
    rename_i sub hsub
    refine refines_ite (fun _ => refines_fail _ _ _) fun _ => ?_
    refine (hi.comparable sub entry.value false).bind fun e e' he => (ih _).bind ?_
    rintro fields fields' ⟨hnames, hrest⟩
    exact refines_pure ⟨congrArg (entry.name.unquoted :: ·) hnames, .cons hsub he hrest⟩

theorem mapEntries_refines (hi : inner.Refer r inner') (key value : Field) (seen : List MapKey)
    (entries : List StructEntry) :
    Refines
      (fun pairs pairs' => pairs'.map Prod.fst = pairs.map Prod.fst ∧
        entriesRefer r (fun _ => some value) entries (pairs.map Prod.snd) (pairs'.map Prod.snd))
      (mapEntries inner key value ⟨false, optional⟩ seen entries)
      (mapEntries inner' key value ⟨true, optional⟩ seen entries) := by
  induction entries generalizing seen with
  | nil => exact refines_pure ⟨rfl, .nil⟩
  | cons entry entries ih =>
    rw [mapEntries, mapEntries]
    refine refines_step fun k => refines_ite (fun _ => refines_fail _ _ _) fun _ => ?_
    refine (hi.comparable value entry.value optional).bind fun e e' he => (ih _).bind ?_
    rintro pairs pairs' ⟨hkeys, hrest⟩
    exact refines_pure ⟨congrArg (Expr.value k.toValue :: ·) hkeys, .cons rfl he hrest⟩

theorem structValue_refines (hi : inner.Refer r inner') (f : Field) (s : StructLiteral) :
    Refines (Comparable.Refers r f (.struct s)) (r.structValue inner f s ⟨false, optional⟩)
      ((r.withLimits true depth).structValue inner' f s ⟨true, optional⟩) := by
  unfold structValue
  refine refines_ite (fun hmap => ?_) fun _ => ?_
  · refine refines_ite (fun _ => refines_fail _ _ _) fun _ => ?_
    split
    · exact refines_throw _ _
    · exact refines_throw _ _
    rename_i key value hkey hvalue
    refine (mapEntries_refines hi _ value [] s.entries).bind ?_
    rintro pairs pairs' ⟨hkeys, hrest⟩
    exact refines_pure (.map ⟨hmap, hvalue⟩ hkeys hrest)
  -- the literals of well-known types hold no fields in place of values
  have hsame {x y : Resolve Expr} (hf : (r.schema.wellKnownOf? f).isSome = true)
      (h : Refines Eq x y) : Refines (Comparable.Refers r f (.struct s)) x y :=
    h.mono fun e _ he => he ▸ .wellKnown hf
  rw [withLimits_schema]
  split
  · rename_i hw
    refine hsame (by rw [hw]; rfl) ((instant_refines hi f s .timestamp).bind ?_)
    rintro x _ rfl
    exact (Within.refl _).refines
  · rename_i hw
    refine hsame (by rw [hw]; rfl) ((instant_refines hi f s .duration).bind ?_)
    rintro x _ rfl
    exact (Within.refl _).refines
  · rename_i hw
    exact hsame (by rw [hw]; rfl) (dynamicMap_refines hi s)
  · rename_i hw
    exact hsame (by rw [hw]; rfl) (hi.dynamic (.struct s) optional)
  rename_i hw
  refine refines_ite (fun _ => ?_) fun _ => refines_fail _ _ _
  unfold messageStruct
  rw [withLimits_schema]
  split
  · exact refines_throw _ _
  rename_i message hmessage
  refine refines_step fun _ => (messageEntries_refines hi message [] s.entries).bind ?_
  rintro fields fields' ⟨hnames, hrest⟩
  exact refines_pure (.message ⟨hw, hmessage⟩ hnames hrest)

theorem elementsRefer_of_forall₃ {f : Field} {cs : List Comparable} {es es' : List Expr}
    (h : Forall₃ (Comparable.Refers r f) cs es es') : elementsRefer r f cs es es' := by
  induction h with
  | nil => exact .nil
  | cons h _ ih => exact .cons h ih

theorem comparableBody_refines (hhooks : r.options.HookFree) (h : levels < levels')
    (hi : inner.Refer r inner') (f : Field) (c : Comparable) :
    Refines (Comparable.Refers r f c) (r.comparableBody levels inner f c ⟨false, optional⟩)
      ((r.withLimits true depth).comparableBody levels' inner' f c ⟨true, optional⟩) := by
  cases c with
  | array a =>
    refine refines_ite (fun _ => refines_fail _ _ _) fun _ => ?_
    refine (refines_mapM (fun c => hi.comparable f c optional) a.elements).bind fun es es' hes => ?_
    exact refines_pure (.array (elementsRefer_of_forall₃ hes))
  | call c => exact callValue_refines hhooks c (some f) _
  | struct s => exact structValue_refines hi f s
  | member m =>
    refine refines_ite (fun hw => ?_) fun _ => memberValue_refines m h
    refine (hi.dynamic (.member m) optional).mono ?_
    rintro e _ rfl
    exact .wellKnown (by rw [hw]; rfl)

/-- The logic of a tree is kept by any two runs of it. -/
theorem both_refines {L : Restriction → Expr → Expr → Prop} {f g : Term → Resolve Expr}
    (h : ∀ t, Refines (Term.Both L t) (f t) (g t)) (x : Expression) :
    Refines (Expression.Both L x)
      (do
        let sequences ← x.sequences.mapM fun s => do
          let factors ← s.factors.mapM fun y => do
            let terms ← y.terms.mapM f
            return Expr.disjunction terms
          return Expr.conjunction factors
        return Expr.conjunction sequences)
      (do
        let sequences ← x.sequences.mapM fun s => do
          let factors ← s.factors.mapM fun y => do
            let terms ← y.terms.mapM g
            return Expr.disjunction terms
          return Expr.conjunction factors
        return Expr.conjunction sequences) := by
  refine (refines_mapM (fun s => ?_) x.sequences).bind fun _ _ hs => refines_pure (.of hs)
  refine (refines_mapM (fun y => ?_) s.factors).bind fun _ _ hs => refines_pure (.of hs)
  exact (refines_mapM h y.terms).bind fun _ _ hs => refines_pure (.of hs)

theorem groupBody_refines (hi : inner.Refer r inner') (f : Field) (x : Expression) :
    Refines (x.Refers r f) (groupBody inner f x ⟨false, optional⟩)
      (groupBody inner' f x ⟨true, optional⟩) := by
  refine both_refines (fun t => ?_) x
  cases ht : t.simple with
  | composite c =>
    exact (hi.group f c.expression optional).bind fun e e' he => refines_pure (.group ht he)
  | restriction y =>
    cases hy : y.comparison with
    | some c =>
      simp only [hy]
      exact refines_fail c.pos .comparisonInGroup _
    | none =>
      simp only [hy]
      refine (hi.comparable f y.comparable optional).bind fun e e' he => ?_
      exact refines_pure (.restriction ht ⟨hy, he⟩)

theorem dynamicBody_refines (hhooks : r.options.HookFree) (hi : inner.Refer r inner')
    (c : Comparable) :
    Refines Eq (r.dynamicBody inner c ⟨false, optional⟩)
      ((r.withLimits true depth).dynamicBody inner' c ⟨true, optional⟩) := by
  cases c with
  | member m => exact (Within.refl _).refines
  | struct s => exact dynamicMap_refines hi s
  | array a =>
    refine (refines_mapM (fun c => hi.dynamic c optional) a.elements).bind fun es es' hes => ?_
    exact refines_pure (congrArg Expr.array hes.eq)
  | call c => exact callValue_refines hhooks c none _

/-- By induction on the levels that are left on the first side; the second has one more at least. -/
theorem innerAt_refines (hhooks : r.options.HookFree) (h : levels < levels') :
    (r.innerAt levels).Refer r ((r.withLimits true depth).innerAt levels') := by
  have hdeepen : (r.innerAt levels).Deepen r ((r.withLimits true depth).innerAt levels') :=
    innerAt_deepens (Nat.le_of_lt h)
  induction levels generalizing levels' with
  | zero =>
    refine ⟨fun f c optional => ?_, fun f x optional => ?_, fun c optional => ?_, hdeepen⟩
    · simp only [innerAt, comparableValue]
      exact refines_fail _ _ _
    · simp only [innerAt, groupValue]
      exact refines_fail _ _ _
    · simp only [innerAt, dynamicValue]
      exact refines_fail _ _ _
  | succ levels ih =>
    obtain ⟨levels', rfl⟩ : ∃ k, levels' = k + 1 := ⟨levels' - 1, by omega⟩
    have hlt : levels < levels' := by omega
    have hi := ih hlt (innerAt_deepens (Nat.le_of_lt hlt))
    refine ⟨fun f c optional => ?_, fun f x optional => ?_, fun c optional => ?_, hdeepen⟩
    · simp only [innerAt, comparableValue]
      exact comparableBody_refines hhooks hlt hi f c
    · simp only [innerAt, groupValue]
      exact groupBody_refines hi f x
    · simp only [innerAt, dynamicValue]
      exact dynamicBody_refines hhooks hi c

theorem leftSide_field (hr : r.Ready True) (levels : Nat) (c : Comparable) :
    Meets True (r.leftSide levels c) fun x => r.leftField? c x.1 = some x.2 := by
  cases c with
  | member m =>
    exact (selectRoot_meets hr levels m).bind fun x hx => meets_pure hx.1
  | call c =>
    unfold leftSide
    dsimp only
    split
    · exact meets_fail _ _
    · rename_i result hresult
      exact (call_meets hr (innerAt_meets hr levels) c none).bind fun e _ => meets_pure hresult
  | struct s => exact meets_fail _ _
  | array a => exact meets_fail _ _

/-- What `IN` accepts of values without fields are arrays, and arrays stay arrays. -/
theorem checkIn_refines {R : Expr → Expr → Prop} (c : Comparison) {e e' : Expr} (he : R e e')
    (harray : e.KeepsArray e') (hdirect : e.isIndirect = false) :
    Refines R (r.checkIn levels c e) ((r.withLimits true depth).checkIn levels' c e') := by
  cases e with
  | array items =>
    obtain ⟨items', rfl⟩ := harray items rfl
    exact refines_pure he
  | field x => cases hdirect
  | call package name args cost => cases hdirect
  | compare | and | or | not | value | map => exact refines_fail c.pos .needsArray _

theorem rightSide_refines (hr : r.Ready True) (hdirect : r.options.allowIndirect = false)
    (h : levels < levels') (target : Field) (c : Comparison) :
    Refines
      (fun e e' => ∃ f, operandOf? target c.comparator = some f ∧ c.arg.Refers r f e e')
      (r.rightSide levels target c) ((r.withLimits true depth).rightSide levels' target c) := by
  have hi : (r.innerAt levels).Refer r ((r.withLimits true depth).innerAt levels') :=
    innerAt_refines hr.hooks h
  have hallow : (r.withLimits true depth).options.allowIndirect = true := rfl
  by_cases hc : c.comparator = .isIn
  · rw [rightSide_isIn hc, rightSide_isIn hc, hdirect, hallow]
    have hf : ¬True → r.schema.Sound target := fun hfault => absurd trivial hfault
    have htyped : Meets True (argValue (r.innerAt levels) target c.arg ⟨false, false⟩)
        (Typed r.schema target ⟨false, false⟩) :=
      argValue_meets (innerAt_meets hr levels) hf rfl c.arg
    refine ((argValue_refines hi target c.arg).meets htyped).bind fun e e' he => ?_
    obtain ⟨he, htyped⟩ := he
    refine checkIn_refines c ⟨target, ?_, he⟩ he.keepsArray (e.plain_of_reads (htyped.direct rfl)).1
    rw [operandOf?, if_neg (by simp [hc])]
  · unfold rightSide
    rw [hdirect, hallow]
    dsimp only
    split
    · rename_i hc
      refine refines_ite (fun hmap => ?_) fun hmap => ?_
      · split
        · exact refines_throw _ _
        · rename_i key hkey
          refine (argValue_refines hi key c.arg).mono fun e e' he => ⟨key, ?_, he⟩
          rw [operandOf?, if_pos ⟨hc, hmap⟩, hkey]
      · refine (argValue_refines hi target c.arg).mono fun e e' he => ⟨target, ?_, he⟩
        rw [operandOf?, if_neg fun hboth => hmap hboth.2]
    · exact absurd ‹_› hc
    · rename_i hc _
      refine (argValue_refines hi target c.arg).mono fun e e' he => ⟨target, ?_, he⟩
      rw [operandOf?, if_neg fun hboth => hc hboth.1]

theorem restriction_refines (hr : r.Ready True) (hdirect : r.options.allowIndirect = false)
    (h : levels < levels') (x : Restriction) :
    Refines (x.Refers r) (r.restriction levels x)
      ((r.withLimits true depth).restriction levels' x) := by
  have hle := Nat.le_of_lt h
  have hhooks : (r.withLimits true depth).options.HookFree :=
    ⟨hr.hooks.fieldHooks, hr.hooks.callHooks⟩
  unfold restriction
  split
  · rename_i hx
    refine (alone_deepens hle x.comparable).within.refines.mono ?_
    rintro e _ rfl
    exact .alone hx
  · rename_i c hx
    have hleft := leftSide_field hr levels x.comparable
    refine ((leftSide_deepens hle x.comparable).within.refines.meets hleft).bind ?_
    rintro y _ ⟨rfl, hy⟩
    dsimp only
    rw [hooked_eq_none hr.hooks, hooked_eq_none hhooks, pure_bind, pure_bind]
    refine (rightSide_refines hr hdirect h y.2 c).bind fun e e' he => ?_
    obtain ⟨f, hf, he⟩ := he
    exact refines_pure (.compare hx hy hf he)

/-- By induction on the levels that are left on the first side. -/
theorem expression_refines (hr : r.Ready True) (hdirect : r.options.allowIndirect = false)
    (h : levels < levels') (x : Expression) :
    Refines (x.Both (Restriction.Refers r)) (r.expression levels x)
      ((r.withLimits true depth).expression levels' x) := by
  induction levels generalizing levels' x with
  | zero =>
    simp only [expression]
    exact refines_fail _ _ _
  | succ levels ih =>
    obtain ⟨levels', rfl⟩ : ∃ k, levels' = k + 1 := ⟨levels' - 1, by omega⟩
    have hlt : levels < levels' := by omega
    simp only [expression]
    refine both_refines (fun t => ?_) x
    cases ht : t.simple with
    | composite c =>
      exact (ih hlt c.expression).bind fun e e' he => refines_pure (.group ht he)
    | restriction y =>
      exact (restriction_refines hr hdirect hlt y).bind fun e e' he =>
        refines_pure (.restriction ht he)

end Resolver

/-- A filter that has been read and that resolves without fields in place of values resolves with
them too, given one level more. An empty one is still empty, and the expression of any other differs
only in words that name a field of the root message, in places for texts or bytes. -/
theorem Resolver.resolve_withIndirect {r : Resolver} (hhooks : r.options.HookFree)
    (hdirect : r.options.allowIndirect = false) {before store : Store} {o : ParserOptions}
    {input : String} (hparse : before.reparse o input = .ok store) {filter : ResolvedFilter}
    {reports : List (Report ValueCause)} (h : (r.resolve store).run = (.ok filter, reports)) :
    ∃ filter', ((r.withLimits true (r.options.maxDepth + 1)).resolve store).run =
        (.ok filter', reports) ∧
      (store.tree? = none ∧ filter.expr = none ∧ filter'.expr = none ∨
        ∃ tree e e', store.tree? = some tree ∧ filter.expr = some e ∧ filter'.expr = some e' ∧
          tree.Both (Restriction.Refers r) e e') := by
  obtain ⟨tree, -, rfl⟩ := Store.reparse_ok.1 hparse
  rw [resolve_load, Resolve.run] at h
  rw [resolve_load, Resolve.run, Store.tree?_load]
  cases tree with
  | none =>
    cases h
    exact ⟨_, rfl, .inl ⟨rfl, rfl, rfl⟩⟩
  | some tree =>
    cases hrun : r.resolveTree (some tree) [] with
    | error e s =>
      rw [hrun] at h
      cases h
    | ok f s =>
      rw [hrun] at h
      cases h
      rw [resolveTree_some] at hrun
      obtain ⟨e, s₁, he, hpure⟩ := bind_ok.1 hrun
      cases hpure
      have hr : r.Ready True := ⟨hhooks, fun hfault => absurd trivial hfault⟩
      obtain ⟨e', he', hboth⟩ := expression_refines hr hdirect (Nat.lt_succ_self _) tree _ _ _ he
      have hrun' : (r.withLimits true (r.options.maxDepth + 1)).resolveTree (some tree) [] =
          .ok ⟨some e', e'.complexity⟩ reports := by
        rw [resolveTree_some]
        exact bind_ok.2 ⟨e', reports, he', rfl⟩
      rw [hrun']
      exact ⟨_, rfl, .inr ⟨tree, e, e', rfl, rfl, rfl, hboth⟩⟩

/-- The same filters of events with indirection. -/
def indirectEventResolver : Resolver :=
  directEventResolver.withLimits true (directEventResolver.options.maxDepth + 1)

/-- Words that name fields, alone, in an array and in a group, next to the same words in quotes.
Each of the three fields that are read instead adds to the cost. -/
theorem words_become_fields : ∃ store filter reports filter' tree e e',
    Store.empty.reparse .allExtensions
      "name = at name IN ['at', counts] NOT name = ('at' OR other AND name)" = .ok store ∧
    (directEventResolver.resolve store).run = (.ok filter, reports) ∧
    (indirectEventResolver.resolve store).run = (.ok filter', reports) ∧
    store.tree? = some tree ∧ filter.expr = some e ∧ filter'.expr = some e' ∧
    (e.complexity, e'.complexity) = (3, 6) ∧
    tree.Both (Restriction.Refers directEventResolver) e e' := by
  obtain ⟨store, filter, reports, e, hstore, hrun, he, hcost⟩ :=
    exists_of_resolve_any directEventResolver .allExtensions
      "name = at name IN ['at', counts] NOT name = ('at' OR other AND name)"
      (fun e => e.complexity == 3) (by decide +kernel)
  obtain ⟨store', filter', reports', e', hstore', hrun', he', hcost'⟩ :=
    exists_of_resolve_any indirectEventResolver .allExtensions
      "name = at name IN ['at', counts] NOT name = ('at' OR other AND name)"
      (fun e => e.complexity == 6) (by decide +kernel)
  cases hstore.symm.trans hstore'
  obtain ⟨filter₁, hrun₁, hboth⟩ := Resolver.resolve_withIndirect ⟨rfl, rfl⟩ rfl hstore hrun
  cases hrun₁.symm.trans hrun'
  obtain ⟨-, hnone, -⟩ | ⟨tree, x, x', htree, hx, hx', hboth⟩ := hboth
  · cases he.symm.trans hnone
  cases he.symm.trans hx
  cases he'.symm.trans hx'
  refine ⟨store, filter, reports, filter', tree, e, e', hstore, hrun, hrun', htree, he, he', ?_,
    hboth⟩
  rw [eq_of_beq hcost, eq_of_beq hcost']

end ListQuery.Filter
