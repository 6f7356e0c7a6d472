/-
A text inside parentheses is read as it is alone. A run of the grammar to the end of a text is
followed side by side with a run where a closing parenthesis stands behind the text, with as many
levels of nesting or more (`Parser.Encloses`). The runs see the same pieces, but where the first one
sees the end of the text, the second one sees the parenthesis. The grammar tells the two apart in
one place only, the end of an argument list, which the first run does not get past. Main statement:
`Parser.innerAt_enclose`.
-/
import ListQuery.Proofs.Parse.RoundTrip
import ListQuery.Proofs.Parse.Takes

namespace ListQuery.Filter

open Piece

namespace Piece

/-- Nothing stands behind, or a parenthesis that closes. -/
def Closing (r : List Piece) : Prop := r = [] ∨ headKind r = .rightParen

theorem closing_nil : Closing [] := .inl rfl

variable {r ps : List Piece}

theorem Closing.headKind_eq (h : Closing r) : headKind r = .eof ∨ headKind r = .rightParen :=
  h.imp_left fun hnil => by rw [hnil]; rfl

theorem headKind_append (hps : ps ≠ []) (r : List Piece) : headKind (ps ++ r) = headKind ps := by
  cases ps with
  | nil => exact absurd rfl hps
  | cons p ps => rfl

theorem ne_nil_of_headKind {k : Kind} (h : headKind ps = k) (hk : k ≠ .eof) : ps ≠ [] := by
  rintro rfl
  exact hk h.symm

/-- Kinds that stand in front of two runs side by side. -/
def Faces (k k' : Kind) : Prop := k' = k ∨ k = .eof ∧ k' = .rightParen

theorem faces_headKind (hr : Closing r) (ps : List Piece) :
    Faces (headKind ps) (headKind (ps ++ r)) := by
  cases ps with
  | nil => exact hr.headKind_eq.imp id fun h => ⟨rfl, h⟩
  | cons p ps => exact .inl rfl

theorem Faces.eq_of_ne {k k' : Kind} (h : Faces k k') (hk : k ≠ .eof) : k' = k :=
  h.resolve_right fun he => hk he.1

theorem unblank_append (hr : Closing r) (ps : List Piece) :
    unblank (ps ++ r) = unblank ps ++ r := by
  cases ps with
  | nil =>
    refine unblank_eq_self ?_
    rcases hr.headKind_eq with h | h <;> rw [List.nil_append, h] <;> decide
  | cons p ps =>
    by_cases hp : p.kind = .whitespace
    · rw [List.cons_append, unblank_cons_blank hp, unblank_cons_blank hp]
    · rw [List.cons_append, unblank_cons hp, unblank_cons hp, List.cons_append]

end Piece

/-- The options with another limit. -/
def ParserOptions.withDepth (o : ParserOptions) (depth : Nat) : ParserOptions :=
  { o with maxDepth := depth }

namespace Parser

/-- Behind a keyword the end of the text and a closing parenthesis are alike: it is a name. -/
theorem endsName_faces {k k' : Kind} (h : Faces k k') : endsName k' = endsName k := by
  rcases h with rfl | ⟨rfl, rfl⟩ <;> rfl

variable {r ps : List Piece} {o : ParserOptions}

theorem endsName_secondKind_append (hr : Closing r) (hps : ps ≠ []) :
    endsName (secondKind (ps ++ r)) = endsName (secondKind ps) := by
  rw [secondKind, List.tail_append_of_ne_nil hps, unblank_append hr]
  exact endsName_faces (faces_headKind hr _)

theorem isOperator_append (hr : Closing r) {word : Kind} (hps : ps ≠ []) :
    isOperator word (ps ++ r) = isOperator word ps := by
  rw [isOperator, headKind_append hps, endsName_secondKind_append hr hps, isOperator]

theorem opensFactor_append (hr : Closing r) (ps : List Piece) :
    opensFactor o (ps ++ r) = opensFactor o ps := by
  by_cases hps : ps = []
  · subst hps
    rcases hr.headKind_eq with h | h <;> rw [List.nil_append, opensFactor, h] <;> rfl
  · rw [opensFactor, headKind_append hps, endsName_secondKind_append hr hps, opensFactor]

theorem comparatorAt_append (hr : Closing r) (ps : List Piece) :
    comparatorAt o (ps ++ r) = comparatorAt o ps := by
  by_cases hps : ps = []
  · subst hps
    rcases hr.headKind_eq with h | h <;> rw [List.nil_append, comparatorAt, h] <;> rfl
  · rw [comparatorAt, headKind_append hps, isOperator_append hr hps, comparatorAt]

variable {α β γ δ : Type}

/-- Where the first parser succeeds on pieces with the property `P`, the second one succeeds with
`r` behind them, and leaves the same pieces with `r` behind; `R` relates the two results and what is
left. -/
def Encloses (r : List Piece) (P : List Piece → Prop) (p : Parser α) (q : Parser β)
    (R : α → β → List Piece → Prop) : Prop :=
  ∀ s a s', P s.pieces → p s = .ok a s' →
    Gets q (s.pieces ++ r) (fun b => R a b s'.pieces) (s'.pieces ++ r)

/-- The two results are the same, up to what `u` tells apart. -/
abbrev Alike (u : α → β) : α → α → List Piece → Prop := fun a b _ => u b = u a

namespace Encloses

variable {P P' : List Piece → Prop} {p : Parser α} {q : Parser β} {R : α → β → List Piece → Prop}
  {S : γ → δ → List Piece → Prop}

theorem bind {f : α → Parser γ} {g : β → Parser δ} (h : Encloses r P p q R)
    (hf : ∀ a b, Encloses r (R a b) (f a) (g b) S) : Encloses r P (p >>= f) (q >>= g) S := by
  intro s c s' hP hrun
  obtain ⟨a, s₁, h₁, h₂⟩ := bind_ok.1 hrun
  exact (h s a s₁ hP h₁).bind fun b hb => hf a b s₁ c s' hb h₂

theorem of_not_ok (h : ∀ {s a s'}, ¬ p s = .ok a s') : Encloses r P p q R :=
  fun _ _ _ _ hrun => absurd hrun h

theorem weaken (h : Encloses r P p q R) (hP : ∀ ps, P' ps → P ps) : Encloses r P' p q R :=
  fun s a s' hs => h s a s' (hP _ hs)

/-- What the pieces say about the values that the parsers depend on. -/
theorem given {φ : Prop} (hφ : ∀ ps, P ps → φ) (h : φ → Encloses r P p q R) :
    Encloses r P p q R :=
  fun s a s' hs => h (hφ _ hs) s a s' hs

theorem any (h : Encloses r (fun _ => True) p q R) : Encloses r P p q R :=
  h.weaken fun _ _ => trivial

theorem mono {R' : α → β → List Piece → Prop} (h : Encloses r P p q R)
    (hR : ∀ a b ps, R a b ps → R' a b ps) : Encloses r P p q R' :=
  fun s a s' hs hrun => (h s a s' hs hrun).mono fun b => hR a b _

/-- Parsers whose results are related, whatever is left, and what goes on from there. -/
theorem seq {φ : α → β → Prop} {f : α → Parser γ} {g : β → Parser δ}
    (h : Encloses r P p q fun a b _ => φ a b)
    (hf : ∀ a b, φ a b → Encloses r (fun _ => True) (f a) (g b) S) :
    Encloses r P (p >>= f) (q >>= g) S :=
  h.bind fun a b => .given (fun _ hφ => hφ) fun hφ => (hf a b hφ).any

end Encloses

/-! ## Steps -/

section Steps

variable {P : List Piece → Prop} {R : α → β → List Piece → Prop}

theorem encloses_pure {a : α} {b : β} (h : ∀ ps, P ps → R a b ps) :
    Encloses r P (pure a) (pure b) R := by
  intro s a' s' hP hrun
  obtain ⟨rfl, rfl⟩ := pure_ok.1 hrun
  exact .pure (h _ hP)

theorem encloses_peek (hr : Closing r) : Encloses r P peek peek
    fun t t' ps => headKind ps = t.kind ∧ t'.kind = headKind (ps ++ r) ∧ Faces t.kind t'.kind := by
  intro s t s' _ hrun
  obtain ⟨rfl, rfl⟩ := peek_ok hrun
  refine gets_peek.mono fun t' ht' => ?_
  refine ⟨s.head_kind.symm, ht', ?_⟩
  rw [ht', s.head_kind]
  exact faces_headKind hr _

theorem encloses_peekKind (hr : Closing r) : Encloses r P peekKind peekKind
    fun k k' ps => headKind ps = k ∧ Faces k k' := by
  intro s k s' _ hrun
  obtain ⟨rfl, rfl⟩ := peekKind_ok hrun
  refine gets_peekKind.mono fun k' hk' => ?_
  subst hk'
  exact ⟨rfl, faces_headKind hr _⟩

theorem encloses_peekFaces (hr : Closing r) :
    Encloses r P peekKind peekKind fun k k' _ => Faces k k' :=
  (encloses_peekKind hr).mono fun _ _ _ h => h.2

/-- Both runs take the same token, since what follows does not take the end of the text for one. -/
theorem encloses_next {f : Token → Parser α} {g : Token → Parser β}
    (heof : ∀ {t s a s'}, t.kind = .eof → ¬ f t s = .ok a s')
    (h : ∀ t t', t'.piece = t.piece → Encloses r (fun _ => True) (f t) (g t') R) :
    Encloses r P (next >>= f) (next >>= g) R := by
  intro s a s' _ hrun
  obtain ⟨t, s₁, h₁, h₂⟩ := bind_ok.1 hrun
  obtain ⟨rfl, hs₁⟩ := next_ok h₁
  have hne : s.head.kind ≠ .eof := fun he => heof he h₂
  rw [s.pieces_of_head rfl hne, List.cons_append, ← hs₁]
  exact (gets_next _).bind fun t' ht' => h _ t' ht' s₁ a s' trivial h₂

theorem encloses_next_of_ne {k : Kind} (hk : k ≠ .eof) : Encloses r (headKind · = k) next next
    fun t t' _ => t'.piece = t.piece := by
  intro s t s' hP hrun
  obtain ⟨rfl, hs'⟩ := next_ok hrun
  rw [s.pieces_of_head (s.head_kind.trans hP) hk, List.cons_append, ← hs']
  exact gets_next _

theorem encloses_spanFrom (start start' : Position) :
    Encloses r P (spanFrom start) (spanFrom start') fun _ _ _ => True := by
  intro s x s' _ hrun
  obtain rfl := spanFrom_ok hrun
  exact gets_spanFrom _

theorem encloses_get : Encloses r P get get
    fun saved saved' _ => Stands saved' (saved.pieces ++ r) := by
  intro s saved s' _ hrun
  obtain ⟨rfl, rfl⟩ := get_ok.1 hrun
  exact gets_get

theorem encloses_restore {saved saved' : ParseState} (h : Stands saved' (saved.pieces ++ r)) :
    Encloses r P (restore saved) (restore saved') fun _ _ _ => True := by
  intro s x s' _ hrun
  rw [restore_ok hrun]
  exact gets_restore h

theorem encloses_skipBlank (hr : Closing r) : Encloses r P skipBlank skipBlank
    fun t t' _ => t'.map Token.piece = t.map Token.piece := by
  intro s t s' _ hrun
  rcases eat_ok hrun with ⟨hk, rfl, hs'⟩ | ⟨hk, rfl, hs'⟩
  · rw [s.pieces_of_head (s.head_kind.trans hk) (by decide), List.cons_append, ← hs']
    refine (gets_skipBlank _ (s.head_kind.trans hk)).mono fun x hx => ?_
    obtain ⟨t', rfl, ht'⟩ := hx
    simp only [Option.map_some, ht']
  · rw [hs']
    refine (gets_skipBlank_none ?_).mono fun x hx => by rw [hx]
    rcases faces_headKind hr s.pieces with h | ⟨-, h⟩ <;> rw [h]
    · exact hk
    · decide

theorem encloses_eat {kind : Kind} (hkind : kind ≠ .eof) : Encloses r (· ≠ []) (eat kind) (eat kind)
    fun t t' _ => t'.isSome = t.isSome := by
  intro s t s' hP hrun
  rcases eat_ok hrun with ⟨hk, rfl, hs'⟩ | ⟨hk, rfl, hs'⟩
  · rw [s.pieces_of_head (s.head_kind.trans hk) hkind, List.cons_append, ← hs']
    exact gets_eat _ (s.head_kind.trans hk)
  · rw [hs']
    refine (gets_eat_none ?_).mono fun x hx => by rw [hx]
    rw [headKind_append hP]
    exact hk

theorem encloses_fail {q : Parser β} (pos : Position) (cause : SyntaxCause) :
    Encloses r P (fail pos cause : Parser α) q R := .of_not_ok fail_ok

theorem encloses_unexpected {q : Parser β} (t : Token) (what : String) :
    Encloses r P (unexpected t what : Parser α) q R := .of_not_ok unexpected_ok

theorem encloses_innerBlank (hr : Closing r) (place : String) :
    Encloses r P (innerBlank o place) (innerBlank o place) fun _ _ _ => True := by
  refine (encloses_skipBlank hr).seq fun t t' ht => ?_
  cases t with
  | none =>
    obtain rfl := Option.map_eq_none_iff.1 ht
    exact encloses_pure fun _ _ => trivial
  | some t =>
    obtain ⟨t', rfl, -⟩ := Option.map_eq_some_iff.1 ht
    cases o.strictWhitespace with
    | true => exact encloses_fail _ _
    | false => exact encloses_pure fun _ _ => trivial

/-- A check of blanks that succeeds changes nothing. -/
theorem encloses_requireSpace {t t' : Option Token} (h : t'.map Token.piece = t.map Token.piece)
    (place : String) :
    Encloses r P (requireSpace o t place) (requireSpace o t' place) fun _ _ => P := by
  unfold requireSpace
  cases o.strictWhitespace with
  | false => exact encloses_pure fun _ hP => hP
  | true =>
    cases t with
    | none =>
      refine .of_not_ok fun hrun => ?_
      obtain ⟨_, _, _, hfail⟩ := bind_ok.1 hrun
      exact fail_ok hfail
    | some t =>
      obtain ⟨t', rfl, ht'⟩ := Option.map_eq_some_iff.1 h
      have htext : t'.text = t.text := congrArg Piece.text ht'
      simp only [↓reduceIte, htext]
      split
      · exact encloses_pure fun _ hP => hP
      · exact encloses_fail _ _

theorem encloses_expect {kind : Kind} (hk : kind ≠ .eof) (what : String) :
    Encloses r P (expect kind what) (expect kind what) fun _ _ _ => True := by
  refine encloses_next (fun he hrun => ?_) fun t t' ht => ?_
  · rw [he, if_neg hk.symm] at hrun
    exact unexpected_ok hrun
  · have hkind : t'.kind = t.kind := congrArg Piece.kind ht
    rw [hkind]
    split
    · exact encloses_pure fun _ _ => trivial
    · exact encloses_unexpected _ _

theorem leaf_not_eof {t : Token} {what : String} {l : Leaf} {s s' : ParseState}
    (ht : t.kind = .eof) : ¬ leaf t what s = .ok l s' := by
  intro h
  have := l.leaf
  rw [(leaf_ok h).1, ht] at this
  cases this

theorem encloses_leaf {t t' : Token} (h : t'.piece = t.piece) (what : String) :
    Encloses r P (leaf t what) (leaf t' what) (Alike Leaf.unplaced) := by
  intro s l s' _ hrun
  obtain ⟨rfl, rfl⟩ := leaf_ok hrun
  exact gets_leaf h _

theorem encloses_keywordIsOperator (hr : Closing r) {k : Kind} (hk : k ≠ .eof) :
    Encloses r (headKind · = k) keywordIsOperator keywordIsOperator
      fun b b' ps => b' = b ∧ headKind ps = k := by
  intro s b s' hP hrun
  obtain ⟨rfl, hs'⟩ := keywordIsOperator_ok hrun
  rw [hs']
  refine gets_keywordIsOperator.mono fun b' hb' => ⟨?_, hP⟩
  rw [hb', endsName_secondKind_append hr (ne_nil_of_headKind hP hk)]

theorem encloses_startsFactor (hr : Closing r) :
    Encloses r P (startsFactor o) (startsFactor o) fun b b' _ => b' = b := by
  intro s b s' _ hrun
  obtain ⟨rfl, hs'⟩ := startsFactor_ok hrun
  rw [hs']
  refine gets_startsFactor.mono fun b' hb' => ?_
  rw [hb', opensFactor_append hr]

/-- The comparator in front, which is there to be taken if it is one. -/
theorem encloses_comparator? (hr : Closing r) {t t' : Token} :
    Encloses r
      (fun ps => headKind ps = t.kind ∧ t'.kind = headKind (ps ++ r) ∧ Faces t.kind t'.kind)
      (comparator? o t) (comparator? o t')
      fun c c' ps => c' = c ∧ headKind ps = t.kind ∧ (c.isSome = true → t.kind ≠ .eof) := by
  intro s c s' hP hrun
  obtain ⟨rfl, hs'⟩ := comparator?_ok hP.1.symm hrun
  rw [hs']
  refine (gets_comparator? hP.2.1).mono fun c' hc' => ?_
  refine ⟨by rw [hc', comparatorAt_append hr], hP.1, fun hsome heof => ?_⟩
  rw [comparatorAt, hP.1, heof] at hsome
  cases hsome

end Steps

/-! ## Repetition -/

/-- A step that gives something takes a token, so the first run never stops for want of fuel. -/
theorem encloses_many {u : α → β} {step step' : Parser (Option α)}
    (h : Encloses r (fun _ => True) step step' (Alike (Option.map u)))
    (hless : ∀ {s a s'}, step s = .ok (some a) s' → s'.rest.length < s.rest.length) :
    Encloses r (fun _ => True) (many step) (many step') (Alike (List.map u)) := by
  have run : ∀ fuel fuel' : Nat, fuel ≤ fuel' → ∀ s as s', s.rest.length < fuel →
      repeatStep step fuel s = .ok as s' →
      Gets (repeatStep step' fuel') (s.pieces ++ r) (fun bs => bs.map u = as.map u)
        (s'.pieces ++ r) := by
    intro fuel
    induction fuel with
    | zero => intro fuel' _ s as s' hlen; omega
    | succ fuel ih =>
      intro fuel' hle s as s' hlen hrun
      obtain ⟨fuel', rfl⟩ := Nat.exists_eq_add_one_of_ne_zero (n := fuel') (by omega)
      obtain ⟨x, s₁, h₁, h₂⟩ := bind_ok.1 hrun
      refine (h s x s₁ trivial h₁).bind fun y hy => ?_
      cases x with
      | none =>
        obtain rfl := Option.map_eq_none_iff.1 hy
        obtain ⟨rfl, rfl⟩ := pure_ok.1 h₂
        exact .pure rfl
      | some a =>
        obtain ⟨b, rfl, hb⟩ := Option.map_eq_some_iff.1 hy
        obtain ⟨as', s₂, h₃, h₄⟩ := bind_ok.1 h₂
        obtain ⟨rfl, rfl⟩ := pure_ok.1 h₄
        have hs₁ := hless h₁
        refine (ih fuel' (by omega) s₁ as' s₂ (by omega) h₃).bind fun bs hbs => .pure ?_
        rw [List.map_cons, List.map_cons, hb, hbs]
  intro s as s' _ hrun t ht
  have hlen := ht.length_rest
  rw [List.length_append, s.length_pieces] at hlen
  exact run _ _ (by omega) s as s' (Nat.lt_succ_self _) hrun t ht

section Items

variable {b : Brackets} {item item' : Parser α} {u : α → β}

/-- Each comma is a token, so the first run never stops for want of fuel. -/
theorem encloses_itemsFrom (hr : Closing r) (hb : b.close ≠ .eof)
    (hitem : Encloses r (fun _ => True) item item' (Alike u))
    (hless : ∀ {s a s'}, item s = .ok a s' → s'.rest.length < s.rest.length) :
    ∀ fuel fuel' : Nat, fuel ≤ fuel' → ∀ s as s', s.rest.length < fuel →
      itemsFrom o b item fuel s = .ok as s' →
      Gets (itemsFrom o b item' fuel') (s.pieces ++ r) (fun bs => bs.map u = as.map u)
        (s'.pieces ++ r) := by
  intro fuel
  induction fuel with
  | zero => intro fuel' _ s as s' hlen; omega
  | succ fuel ih =>
    intro fuel' hle s as s' hlen hrun
    obtain ⟨fuel', rfl⟩ := Nat.exists_eq_add_one_of_ne_zero (n := fuel') (by omega)
    obtain ⟨a, s₁, h₁, h₂⟩ := bind_ok.1 hrun
    obtain ⟨x, s₂, h₃, h₄⟩ := bind_ok.1 h₂
    have hs₁ := hless h₁
    have hs₂ := (innerBlank_takes h₃).length_le
    refine (hitem s a s₁ trivial h₁).bind fun a' ha' => ?_
    refine (encloses_innerBlank hr b.place (P := fun _ => True) s₁ x s₂ trivial h₃).bind
      fun _ _ => ?_
    obtain ⟨t, s₃, h₅, h₆⟩ := bind_ok.1 h₄
    have hs₃ : s₃.rest.length ≤ s₂.rest.length := by
      rw [(next_eq h₅).2]
      exact (List.tail_sublist _).length_le
    obtain ⟨rfl, hpieces⟩ := next_ok h₅
    have hne : s₂.head.kind ≠ .eof := by
      intro he
      rw [he, if_neg (by decide), if_neg hb.symm] at h₆
      exact unexpected_ok h₆
    rw [s₂.pieces_of_head rfl hne, List.cons_append, ← hpieces]
    refine (gets_next _).bind fun t' ht' => ?_
    have hkind : t'.kind = s₂.head.kind := congrArg Piece.kind ht'
    rw [hkind]
    split at h₆
    · obtain ⟨y, s₄, h₇, h₈⟩ := bind_ok.1 h₆
      obtain ⟨as', s₅, h₉, h₁₀⟩ := bind_ok.1 h₈
      obtain ⟨rfl, rfl⟩ := pure_ok.1 h₁₀
      have hs₄ := (innerBlank_takes h₇).length_le
      rw [if_pos ‹_›]
      refine (encloses_innerBlank hr b.place (P := fun _ => True) s₃ y s₄ trivial h₇).bind
        fun _ _ => ?_
      refine (ih fuel' (by omega) s₄ as' s₅ (by omega) h₉).bind fun bs hbs => .pure ?_
      rw [List.map_cons, List.map_cons, ha', hbs]
    · rw [if_neg ‹_›]
      split at h₆
      · obtain ⟨rfl, rfl⟩ := pure_ok.1 h₆
        rw [if_pos ‹_›]
        refine .pure ?_
        rw [List.map_singleton, List.map_singleton, ha']
      · exact absurd h₆ unexpected_ok

/-- Where an argument list is closed, a parenthesis stands for the first run too: at the end of the
text it would go on to read an item. -/
theorem encloses_delimited (hr : Closing r) (hb : b.close ≠ .eof)
    (hitem : Encloses r (fun _ => True) item item' (Alike u))
    (hless : ∀ {s a s'}, item s = .ok a s' → s'.rest.length < s.rest.length) :
    Encloses r (fun _ => True) (delimited o b item) (delimited o b item') (Alike (List.map u)) := by
  refine (encloses_innerBlank hr b.place).bind fun _ _ => ?_
  intro s as s' _ hrun
  have hne : s.pieces ≠ [] := by
    intro hnil
    obtain ⟨t, s₁, h₁, h₂⟩ := bind_ok.1 hrun
    rcases eat_ok h₁ with ⟨hk, -, -⟩ | ⟨-, rfl, hs₁⟩
    · rw [hnil] at hk
      exact hb hk.symm
    · obtain ⟨a, s₂, h₃, -⟩ := bind_ok.1 h₂
      have hlen : s₁.rest.length = 0 := by rw [← s₁.length_pieces, hs₁, hnil, List.length_nil]
      have := hless h₃
      omega
  refine ((encloses_eat hb).seq fun t t' ht => ?_)
    s as s' hne hrun
  cases t with
  | some t =>
    obtain ⟨t', rfl⟩ := Option.isSome_iff_exists.1 ht
    exact encloses_pure fun _ _ => rfl
  | none =>
    obtain rfl := Option.not_isSome_iff_eq_none.1 (by rw [ht]; simp)
    intro s as s' _ hrun t ht
    have hlen := ht.length_rest
    rw [List.length_append, s.length_pieces] at hlen
    exact encloses_itemsFrom hr hb hitem hless _ _ (by omega) s as s' (Nat.lt_succ_self _) hrun t ht

end Items

/-! ## Productions -/

/-- The parsers one level of nesting down, side by side. -/
structure Inner.Enclose (o : ParserOptions) (r : List Piece) (inner inner' : Inner) : Prop where
  expression : Encloses r (fun _ => True) inner.expression inner'.expression
    (Alike Expression.unplaced)
  comparable : Encloses r (fun _ => True) inner.comparable inner'.comparable
    (Alike Comparable.unplaced)
  read : inner.Read o

section Productions

variable {inner inner' : Inner} (hr : Closing r) (hi : inner.Enclose o r inner')

include hr hi

theorem encloses_composite : Encloses r (fun _ => True) (composite inner) (composite inner')
    (Alike Composite.unplaced) := by
  refine (encloses_expect (by decide) _).bind fun _ _ => ?_
  refine (encloses_skipBlank hr).bind fun _ _ => ?_
  refine hi.expression.any.seq fun e e' he => ?_
  refine (encloses_skipBlank hr).bind fun _ _ => ?_
  refine (encloses_expect (by decide) _).bind fun _ _ => ?_
  refine (encloses_spanFrom _ _).bind fun _ _ => encloses_pure fun _ _ => ?_
  simp only [Alike, Composite.unplaced, he]

theorem encloses_arg : Encloses r (fun _ => True) (arg inner) (arg inner')
    (Alike Arg.unplaced) := by
  refine (encloses_peekFaces hr).seq fun k k' hk => ?_
  have hcomparable : Encloses r (fun _ => True) (do return Arg.comparable (← inner.comparable))
      (do return Arg.comparable (← inner'.comparable)) (Alike Arg.unplaced) := by
    refine hi.comparable.bind fun c c' => encloses_pure fun _ hc => ?_
    simp only [Alike, Arg.unplaced, hc]
  rcases hk with rfl | ⟨rfl, rfl⟩
  · split
    · refine (encloses_composite hr hi).bind fun c c' => encloses_pure fun _ hc => ?_
      simp only [Alike, Arg.unplaced, hc]
    · exact hcomparable
  · exact hcomparable

omit hi in
theorem encloses_dottedLeaf : Encloses r (fun _ => True) dottedLeaf dottedLeaf
    (Alike (Option.map Leaf.unplaced)) := by
  refine (encloses_peekKind hr).bind fun k k' => .given (fun _ h => h.2) fun hk => ?_
  by_cases hdot : k = .dot
  · obtain rfl := hk.eq_of_ne (by rw [hdot]; decide)
    rw [if_pos hdot]
    refine .weaken (P := (headKind · = .dot)) ?_ fun _ h => h.1.trans hdot
    refine (encloses_next_of_ne (by decide)).bind fun _ _ => ?_
    refine encloses_next (fun he hrun => ?_) fun t t' ht => ?_
    · obtain ⟨_, _, hleaf, -⟩ := bind_ok.1 hrun
      exact leaf_not_eof he hleaf
    · refine (encloses_leaf ht _).bind fun l l' => encloses_pure fun _ hl => ?_
      simp only [Alike, Option.map_some, hl]
  · have hdot' : k' ≠ .dot := by
      rcases hk with rfl | ⟨-, rfl⟩
      · exact hdot
      · decide
    rw [if_neg hdot, if_neg hdot']
    exact encloses_pure fun _ _ => rfl

theorem encloses_call {name name' : List Leaf}
    (hname : name'.map Leaf.unplaced = name.map Leaf.unplaced) (start start' : Position) :
    Encloses r (fun _ => True) (call o inner name start) (call o inner' name' start')
      (Alike Call.unplaced) := by
  refine (encloses_expect (by decide) _).bind fun _ _ => ?_
  refine (encloses_delimited hr (by decide) (encloses_arg hr hi)
    fun h => (arg_reads hi.read h).less).seq fun args args' hargs => ?_
  refine (encloses_spanFrom _ _).bind fun _ _ => encloses_pure fun _ _ => ?_
  simp only [Alike, Call.unplaced, unplacedArgs_eq, hname, hargs]

theorem encloses_arrayLiteral : Encloses r (fun _ => True) (arrayLiteral o inner)
    (arrayLiteral o inner') (Alike ArrayLiteral.unplaced) := by
  refine (encloses_expect (by decide) _).bind fun _ _ => ?_
  refine (encloses_delimited hr (by decide) hi.comparable fun h => (hi.read.comparable h).less).seq
    fun elements elements' helements => ?_
  refine (encloses_spanFrom _ _).bind fun _ _ => encloses_pure fun _ _ => ?_
  simp only [Alike, ArrayLiteral.unplaced, unplacedElements_eq, helements]

theorem encloses_structEntry : Encloses r (fun _ => True) (structEntry o inner)
    (structEntry o inner') (Alike StructEntry.unplaced) := by
  refine encloses_next (fun he hrun => ?_) fun t t' ht => ?_
  · obtain ⟨_, _, hleaf, -⟩ := bind_ok.1 hrun
    exact leaf_not_eof he hleaf
  · refine (encloses_leaf ht _).seq fun name name' hname => ?_
    refine (encloses_innerBlank hr _).bind fun _ _ => ?_
    refine (encloses_expect (by decide) _).bind fun _ _ => ?_
    refine (encloses_innerBlank hr _).bind fun _ _ => ?_
    refine hi.comparable.bind fun value value' => encloses_pure fun _ hvalue => ?_
    simp only [Alike, StructEntry.unplaced, hvalue, show name'.unplaced = name.unplaced from hname]

theorem encloses_structLiteral {name name' : List Leaf}
    (hname : name'.map Leaf.unplaced = name.map Leaf.unplaced) (start start' : Position) :
    Encloses r (fun _ => True) (structLiteral o inner name start)
      (structLiteral o inner' name' start') (Alike StructLiteral.unplaced) := by
  refine (encloses_expect (by decide) _).bind fun _ _ => ?_
  refine (encloses_delimited hr (by decide) (encloses_structEntry hr hi)
    fun h => (structEntry_reads hi.read h).less).seq fun entries entries' hentries => ?_
  refine (encloses_spanFrom _ _).bind fun _ _ => encloses_pure fun _ _ => ?_
  simp only [Alike, StructLiteral.unplaced, unplacedEntries_eq, hname, hentries]

omit hr hi in
theorem encloses_checkName {path path' : List Leaf}
    (hpath : path'.map Leaf.unplaced = path.map Leaf.unplaced) (what : String) :
    Encloses r (fun _ => True) (checkName path what) (checkName path' what) fun _ _ _ => True := by
  intro s x s' _ hrun
  obtain ⟨rfl, hid⟩ := checkName_ok hrun
  exact gets_checkName what hid hpath

theorem encloses_nameRun : Encloses r (fun _ => True) (nameRun o inner) (nameRun o inner')
    (Alike Comparable.unplaced) := by
  refine encloses_next (fun he hrun => ?_) fun first first' hfirst => ?_
  · obtain ⟨_, _, hleaf, -⟩ := bind_ok.1 hrun
    exact leaf_not_eof he hleaf
  refine (encloses_leaf hfirst _).seq fun value value' hvalue => ?_
  refine (encloses_many (encloses_dottedLeaf hr) dottedLeaf_less).seq
    fun fields fields' hfields => ?_
  have hpath : (value' :: fields').map Leaf.unplaced = (value :: fields).map Leaf.unplaced :=
    congrArg₂ List.cons hvalue hfields
  refine (encloses_peekFaces hr).seq fun k k' hk => ?_
  have hmember : Encloses r (fun _ => True)
      (do return Comparable.member ⟨← spanFrom first.pos, value, fields⟩)
      (do return Comparable.member ⟨← spanFrom first'.pos, value', fields'⟩)
      (Alike Comparable.unplaced) := by
    refine (encloses_spanFrom _ _).bind fun _ _ => encloses_pure fun _ _ => ?_
    simp only [Alike, Comparable.unplaced, Member.unplaced,
      show value'.unplaced = value.unplaced from hvalue,
      show fields'.map Leaf.unplaced = fields.map Leaf.unplaced from hfields]
  rcases hk with rfl | ⟨rfl, rfl⟩
  · split
    · refine (encloses_checkName hpath _).bind fun _ _ => ?_
      refine (encloses_call hr hi hpath _ _).bind fun c c' => encloses_pure fun _ hc => ?_
      simp only [Alike, Comparable.unplaced, hc]
    · split
      · refine (encloses_checkName hpath _).bind fun _ _ => ?_
        refine (encloses_structLiteral hr hi hpath _ _).bind fun c c' =>
          encloses_pure fun _ hc => ?_
        simp only [Alike, Comparable.unplaced, hc]
      · exact hmember
    · exact hmember
  · exact hmember

theorem encloses_comparableBody : Encloses r (fun _ => True) (comparableBody o inner)
    (comparableBody o inner') (Alike Comparable.unplaced) := by
  refine ((encloses_peek hr).mono fun _ _ _ h => h.2.2).seq fun t t' hk => ?_
  by_cases heof : t.kind = .eof
  · -- at the end of the text the first run fails
    simp only [heof, reduceCtorEq, false_and, ↓reduceIte, Kind.isLeaf]
    refine .of_not_ok fun hrun => ?_
    obtain ⟨_, _, _, h⟩ := bind_ok.1 hrun
    exact unexpected_ok h
  rw [hk.eq_of_ne heof]
  split
  · refine (encloses_arrayLiteral hr hi).bind fun c c' => encloses_pure fun _ hc => ?_
    simp only [Alike, Comparable.unplaced, hc]
  split
  · refine (encloses_structLiteral hr hi rfl _ _).bind fun c c' => encloses_pure fun _ hc => ?_
    simp only [Alike, Comparable.unplaced, hc]
  split
  · exact encloses_nameRun hr hi
  · refine .of_not_ok fun hrun => ?_
    obtain ⟨_, _, _, h⟩ := bind_ok.1 hrun
    exact unexpected_ok h

theorem encloses_restriction : Encloses r (fun _ => True) (restriction o inner)
    (restriction o inner') (Alike Restriction.unplaced) := by
  refine (encloses_peek hr).bind fun first first' => ?_
  refine hi.comparable.any.seq fun x x' hx => ?_
  have hx : x'.unplaced = x.unplaced := hx
  refine encloses_get.seq fun saved saved' hsaved => ?_
  refine (encloses_skipBlank hr).bind fun _ _ => ?_
  refine (encloses_peek hr).bind fun t t' => ?_
  refine (encloses_comparator? hr).bind fun c c' =>
    .given (φ := c' = c ∧ (c.isSome = true → t.kind ≠ .eof)) (fun _ h => ⟨h.1, h.2.2⟩) fun hc => ?_
  obtain ⟨rfl, hsome⟩ := hc
  cases c' with
  | some c =>
    refine .weaken (P := (headKind · = t.kind)) ?_ fun _ h => h.2.1
    refine (encloses_next_of_ne (hsome rfl)).bind fun _ _ => ?_
    refine (encloses_skipBlank hr).bind fun _ _ => ?_
    refine (encloses_arg hr hi).any.seq fun a a' ha => ?_
    refine (encloses_spanFrom _ _).bind fun _ _ => encloses_pure fun _ _ => ?_
    simp only [Alike, Restriction.unplaced, Comparison.unplaced, hx,
      show a'.unplaced = a.unplaced from ha]
  | none =>
    refine (encloses_restore hsaved).bind fun _ _ => ?_
    refine (encloses_spanFrom _ _).bind fun _ _ => encloses_pure fun _ _ => ?_
    simp only [Alike, Restriction.unplaced, hx]

omit hi in
theorem encloses_unary : Encloses r (fun _ => True) (unary o) (unary o) fun x x' _ => x' = x := by
  refine (encloses_peekKind hr).bind fun k k' => .given (fun _ h => h.2) fun hk => ?_
  rcases hk with rfl | ⟨rfl, rfl⟩
  · split
    · refine .weaken (P := (headKind · = .notWord)) ?_ fun _ h => h.1
      refine (encloses_keywordIsOperator hr (by decide)).bind
        fun b b' => .given (fun _ h => h.1) fun hb => ?_
      subst hb
      split
      · refine .weaken (P := (headKind · = .notWord)) ?_ fun _ h => h.2
        refine (encloses_next_of_ne (by decide)).bind fun _ _ => ?_
        refine (encloses_skipBlank hr).seq fun x x' hx => ?_
        exact (encloses_requireSpace hx _).bind fun _ _ => encloses_pure fun _ _ => rfl
      · exact encloses_pure fun _ _ => rfl
    · refine .weaken (P := (headKind · = .minus)) ?_ fun _ h => h.1
      refine (encloses_next_of_ne (by decide)).bind fun _ _ => ?_
      exact (encloses_innerBlank hr _).bind fun _ _ => encloses_pure fun _ _ => rfl
    · exact encloses_pure fun _ _ => rfl
  · exact encloses_pure fun _ _ => rfl

theorem encloses_simple : Encloses r (fun _ => True) (simple o inner) (simple o inner')
    (Alike Simple.unplaced) := by
  refine (encloses_peekFaces hr).seq fun k k' hk => ?_
  have hrestriction : Encloses r (fun _ => True)
      (do return Simple.restriction (← restriction o inner))
      (do return Simple.restriction (← restriction o inner')) (Alike Simple.unplaced) := by
    refine (encloses_restriction hr hi).bind fun x x' => encloses_pure fun _ hx => ?_
    simp only [Alike, Simple.unplaced, hx]
  rcases hk with rfl | ⟨rfl, rfl⟩
  · split
    · refine (encloses_composite hr hi).bind fun c c' => encloses_pure fun _ hc => ?_
      simp only [Alike, Simple.unplaced, hc]
    · exact hrestriction
  · exact hrestriction

theorem encloses_term : Encloses r (fun _ => True) (term o inner) (term o inner')
    (Alike Term.unplaced) := by
  refine (encloses_peek hr).bind fun first first' => ?_
  refine (encloses_unary hr).any.seq fun u u' hu => ?_
  subst hu
  refine (encloses_simple hr hi).seq fun x x' hx => ?_
  refine (encloses_spanFrom _ _).bind fun _ _ => encloses_pure fun _ _ => ?_
  simp only [Alike, Term.unplaced, show x'.unplaced = x.unplaced from hx]

omit hi in
theorem encloses_joiner {word : Kind} (hword : word ≠ .eof ∧ word ≠ .rightParen)
    (before after : String) :
    Encloses r (fun _ => True) (joiner o word before after) (joiner o word before after)
      fun x x' _ => x'.isSome = x.isSome := by
  refine encloses_get.seq fun saved saved' hsaved => ?_
  refine (encloses_skipBlank hr).seq fun blank blank' hblank => ?_
  refine (encloses_peekKind hr).bind fun k k' => .given (fun _ h => h.2) fun hk => ?_
  have back {P : List Piece → Prop} : Encloses r P
      (restore saved >>= fun _ => pure none : Parser (Option Position))
      (restore saved' >>= fun _ => pure none : Parser (Option Position))
      fun x x' _ => x'.isSome = x.isSome :=
    (encloses_restore hsaved).bind fun _ _ => encloses_pure fun _ _ => rfl
  by_cases h : k = word
  · have h' : k' = word := (hk.eq_of_ne (h ▸ hword.1)).trans h
    rw [if_pos h, if_pos h']
    refine .weaken (P := (headKind · = word)) ?_ fun _ hps => hps.1.trans h
    refine (encloses_keywordIsOperator hr hword.1).bind
      fun b b' => .given (fun _ h => h.1) fun hb => ?_
    subst hb
    split
    · refine .weaken (P := (headKind · = word)) ?_ fun _ h => h.2
      refine (encloses_requireSpace hblank _).bind fun _ _ => ?_
      refine (encloses_next_of_ne hword.1).bind fun t t' => ?_
      refine (encloses_skipBlank hr).seq fun x x' hx => ?_
      exact (encloses_requireSpace hx _).bind fun _ _ => encloses_pure fun _ _ => rfl
    · exact back
  · have h' : k' ≠ word := by
      rcases hk with rfl | ⟨-, rfl⟩
      · exact h
      · exact hword.2.symm
    rw [if_neg h, if_neg h']
    exact back

theorem encloses_orTerm : Encloses r (fun _ => True) (orTerm o inner) (orTerm o inner')
    (Alike (Option.map fun x => x.2.unplaced)) := by
  refine (encloses_joiner hr (by decide) _ _).seq fun x x' hx => ?_
  cases x with
  | none =>
    obtain rfl := Option.not_isSome_iff_eq_none.1 (by rw [hx]; simp)
    exact encloses_pure fun _ _ => rfl
  | some pos =>
    obtain ⟨pos', rfl⟩ := Option.isSome_iff_exists.1 hx
    refine (encloses_term hr hi).bind fun t t' => encloses_pure fun _ ht => ?_
    simp only [Alike, Option.map_some, ht]

theorem encloses_factor : Encloses r (fun _ => True) (factor o inner) (factor o inner')
    (Alike Factor.unplaced) := by
  refine (encloses_peek hr).bind fun _ _ => ?_
  refine (encloses_term hr hi).any.seq fun first first' hfirst => ?_
  refine (encloses_many (encloses_orTerm hr hi) (orTerm_less hi.read)).seq
    fun others others' hothers => ?_
  refine (encloses_spanFrom _ _).bind fun _ _ => encloses_pure fun _ _ => ?_
  simp only [Alike, Factor.unplaced, unplacedTerms_eq, unplaced_linkTerms hfirst hothers]

theorem encloses_nextFactor : Encloses r (fun _ => True) (nextFactor o inner)
    (nextFactor o inner') (Alike (Option.map Factor.unplaced)) := by
  refine encloses_get.seq fun saved saved' hsaved => ?_
  refine (encloses_skipBlank hr).seq fun x x' hx => ?_
  cases x with
  | none =>
    obtain rfl := Option.map_eq_none_iff.1 hx
    exact encloses_pure fun _ _ => rfl
  | some blank =>
    obtain ⟨blank', rfl, hblank⟩ := Option.map_eq_some_iff.1 hx
    refine (encloses_startsFactor hr).seq fun b b' hb => ?_
    subst hb
    split
    · refine (encloses_requireSpace (by simp only [Option.map_some, hblank]) _).bind
        fun _ _ => ?_
      refine (encloses_factor hr hi).any.bind fun f f' => encloses_pure fun _ hf => ?_
      simp only [Alike, Option.map_some, hf]
    · exact (encloses_restore hsaved).bind fun _ _ => encloses_pure fun _ _ => rfl

theorem encloses_sequence : Encloses r (fun _ => True) (sequence o inner) (sequence o inner')
    (Alike Sequence.unplaced) := by
  refine (encloses_peek hr).bind fun _ _ => ?_
  refine (encloses_factor hr hi).any.seq fun first first' hfirst => ?_
  refine (encloses_many (encloses_nextFactor hr hi) (nextFactor_less hi.read)).seq
    fun others others' hothers => ?_
  refine (encloses_spanFrom _ _).bind fun _ _ => encloses_pure fun _ _ => ?_
  simp only [Alike, Sequence.unplaced, unplacedFactors_eq, List.map_cons, hothers,
    show first'.unplaced = first.unplaced from hfirst]

theorem encloses_andSequence : Encloses r (fun _ => True) (andSequence o inner)
    (andSequence o inner') (Alike (Option.map Sequence.unplaced)) := by
  refine (encloses_joiner hr (by decide) _ _).seq fun x x' hx => ?_
  cases x with
  | none =>
    obtain rfl := Option.not_isSome_iff_eq_none.1 (by rw [hx]; simp)
    exact encloses_pure fun _ _ => rfl
  | some pos =>
    obtain ⟨pos', rfl⟩ := Option.isSome_iff_exists.1 hx
    refine (encloses_sequence hr hi).bind fun t t' => encloses_pure fun _ ht => ?_
    simp only [Alike, Option.map_some, ht]

theorem encloses_expressionBody : Encloses r (fun _ => True) (expressionBody o inner)
    (expressionBody o inner') (Alike Expression.unplaced) := by
  refine (encloses_peek hr).bind fun _ _ => ?_
  refine (encloses_sequence hr hi).any.seq fun first first' hfirst => ?_
  refine (encloses_many (encloses_andSequence hr hi) (andSequence_less hi.read)).seq
    fun others others' hothers => ?_
  refine (encloses_spanFrom _ _).bind fun _ _ => encloses_pure fun _ _ => ?_
  simp only [Alike, Expression.unplaced, unplacedSequences_eq, List.map_cons, hothers,
    show first'.unplaced = first.unplaced from hfirst]

end Productions

section Limit

variable (o : ParserOptions) (depth : Nat) (inner : Inner)

theorem innerBlank_withDepth (place : String) :
    innerBlank (o.withDepth depth) place = innerBlank o place := rfl

theorem itemsFrom_withDepth {α : Type} (b : Brackets) (item : Parser α) (fuel : Nat) :
    itemsFrom (o.withDepth depth) b item fuel = itemsFrom o b item fuel := by
  induction fuel with
  | zero => rfl
  | succ fuel ih => rw [itemsFrom, itemsFrom, ih]; rfl

theorem delimited_withDepth {α : Type} (b : Brackets) (item : Parser α) :
    delimited (o.withDepth depth) b item = delimited o b item := by
  simp only [delimited, itemsFrom_withDepth, innerBlank_withDepth]

theorem structEntry_withDepth : structEntry (o.withDepth depth) inner = structEntry o inner := rfl

theorem structLiteral_withDepth (name : List Leaf) (start : Position) :
    structLiteral (o.withDepth depth) inner name start = structLiteral o inner name start := by
  simp only [structLiteral, delimited_withDepth, structEntry_withDepth]

theorem nameRun_withDepth : nameRun (o.withDepth depth) inner = nameRun o inner := by
  simp only [nameRun, call, delimited_withDepth, structLiteral_withDepth]
  rfl

theorem comparableBody_withDepth :
    comparableBody (o.withDepth depth) inner = comparableBody o inner := by
  simp only [comparableBody, arrayLiteral, delimited_withDepth, structLiteral_withDepth,
    nameRun_withDepth]
  rfl

theorem expressionBody_withDepth :
    expressionBody (o.withDepth depth) inner = expressionBody o inner := rfl

end Limit

theorem innerAt_succ (o : ParserOptions) (levels : Nat) : innerAt o (levels + 1) =
    ⟨expressionBody o (innerAt o levels), comparableBody o (innerAt o levels)⟩ := rfl

/-- With another limit and as many levels of nesting or more, a parenthesis behind the text changes
nothing. -/
theorem innerAt_enclose (depth : Nat) (hr : Closing r) :
    ∀ {levels levels' : Nat}, levels ≤ levels' →
      (innerAt o levels).Enclose o r (innerAt (o.withDepth depth) levels')
  | 0, _, _ => ⟨.of_not_ok tooDeep_ok, .of_not_ok tooDeep_ok, innerAt_read o 0⟩
  | levels + 1, 0, h => absurd h (by omega)
  | levels + 1, levels' + 1, h => by
    have hi := innerAt_enclose depth hr (Nat.le_of_succ_le_succ h)
    rw [innerAt_succ, innerAt_succ, expressionBody_withDepth, comparableBody_withDepth]
    exact ⟨encloses_expressionBody hr hi, encloses_comparableBody hr hi,
      innerAt_read o (levels + 1)⟩

end Parser

end ListQuery.Filter
