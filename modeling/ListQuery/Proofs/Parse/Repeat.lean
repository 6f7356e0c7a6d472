/-
Reading a written tree again. When a run has given a tree, a run under options of the same grammar
gives that tree from its written form, places apart, however strict it is about blanks. The two runs
see the same pieces but for blanks, so they look ahead to the same; what has to be known besides is
what the written form is followed by (`Follows`, `Ends`, `EndsFactor`, `EndsSequence`,
`EndsExpression`).
-/
import ListQuery.Proofs.Parse.Gets
import ListQuery.Proofs.Parse.Yield

namespace ListQuery.Filter

open Piece

/-- Options that differ at most in how strict they are about blanks. -/
structure ParserOptions.SameGrammar (o o' : ParserOptions) : Prop where
  structs : o'.enableStructs = o.enableStructs
  arrays : o'.enableArrays = o.enableArrays
  isIn : o'.enableIn = o.enableIn
  depth : o'.maxDepth = o.maxDepth

theorem ParserOptions.SameGrammar.refl (o : ParserOptions) : o.SameGrammar o :=
  ⟨rfl, rfl, rfl, rfl⟩

theorem ParserOptions.SameGrammar.strict (o : ParserOptions) : o.SameGrammar o.strict :=
  ⟨rfl, rfl, rfl, rfl⟩

namespace Parser

variable {o o' : ParserOptions} {inner inner' : Inner} {s s' : ParseState}

section Ahead

variable {ps qs : List Piece} (h : Cut ps) (h' : Cut qs) (he : solid ps = solid qs)

include h h' he

theorem headKind_congr : headKind (unblank ps) = headKind (unblank qs) := by
  rw [h.headKind_solid, h'.headKind_solid, he]

theorem secondKind_congr : secondKind (unblank ps) = secondKind (unblank qs) := by
  rw [h.secondKind_solid, h'.secondKind_solid, he]

theorem isOperator_congr (word : Kind) :
    isOperator word (unblank ps) = isOperator word (unblank qs) := by
  rw [isOperator, isOperator, headKind_congr h h' he, secondKind_congr h h' he]

theorem opensFactor_congr (ho : o.SameGrammar o') :
    opensFactor o' (unblank ps) = opensFactor o (unblank qs) := by
  rw [opensFactor, opensFactor, headKind_congr h h' he, secondKind_congr h h' he, ho.arrays,
    ho.structs]

theorem comparatorAt_congr (ho : o.SameGrammar o') :
    comparatorAt o' (unblank ps) = comparatorAt o (unblank qs) := by
  rw [comparatorAt, comparatorAt, headKind_congr h h' he, isOperator_congr h h' he, ho.isIn]

end Ahead

/-- What can stand behind a comparable. -/
def Follows (r : List Piece) : Prop :=
  headKind r ∈ [.whitespace, .has, .comma, .rightParen, .rightBracket, .rightBrace, .eof]

/-- What can stand behind a term. -/
def Ends (r : List Piece) : Prop := headKind r ∈ [.whitespace, .rightParen, .eof]

/-- What can stand behind a factor: no `OR`. -/
structure EndsFactor (r : List Piece) : Prop where
  ends : Ends r
  notOr : isOperator .orWord (unblank r) = false

/-- What can stand behind a sequence: no further factor. -/
structure EndsSequence (o : ParserOptions) (r : List Piece) : Prop extends EndsFactor r where
  notFactor : headKind r = .whitespace → opensFactor o (unblank r) = false

/-- What can stand behind an expression. -/
def EndsExpression (r : List Piece) : Prop := headKind r = .rightParen ∨ headKind r = .eof

theorem Ends.follows {r : List Piece} (h : Ends r) : Follows r := by
  simp only [Ends, Follows, List.mem_cons, List.not_mem_nil, or_false] at h ⊢
  rcases h with h | h | h <;> simp [h]

theorem EndsExpression.endsSequence {r : List Piece} (h : EndsExpression r) : EndsSequence o r := by
  have hw : headKind r ≠ .whitespace := by rcases h with h | h <;> simp [h]
  refine ⟨⟨?_, ?_⟩, fun hk => absurd hk hw⟩
  · rcases h with h | h <;> simp [Ends, h]
  · rw [unblank_eq_self hw, isOperator]
    rcases h with h | h <;> simp [h]

/-- The parser reads what `w` writes before anything that may follow. -/
def Repeats {α : Type} (q : Parser α) (w : List Piece) (F : List Piece → Prop) (ps' : List Piece)
    (P : α → Prop) : Prop :=
  ∀ r, solid r = solid ps' → F r → Cut (w ++ r) → Gets q (w ++ r) P r

/-- The productions one level down give again what they gave. -/
structure Inner.Repeat (inner inner' : Inner) : Prop where
  spell : inner.Spell
  expression : ∀ {s e s'}, inner.expression s = .ok e s' → Cut s.pieces →
    Repeats inner'.expression (e.written .quoted) EndsExpression s'.pieces
      (fun e' => e'.unplaced = e.unplaced)
  comparable : ∀ {s c s'}, inner.comparable s = .ok c s' → Cut s.pieces →
    Repeats inner'.comparable (c.written .quoted) Follows s'.pieces
      (fun c' => c'.unplaced = c.unplaced)

theorem composite_repeats (hi : inner.Repeat inner') {c : Composite}
    (h : composite inner s = .ok c s') (hc : Cut s.pieces) :
    Repeats (composite inner') (c.written .quoted) (fun _ => True) s'.pieces
      (fun c' => c'.unplaced = c.unplaced) := by
  intro r hr _ hcut
  obtain ⟨p, p', ps, s₁, s₂, hps, hk, hs₁, he, hstop, hk'⟩ := composite_ok h
  have hc₁ : Cut s₁.pieces := by
    rw [hs₁]
    exact (hc.of_suffix (hps ▸ List.suffix_cons _ _)).of_suffix (unblank_suffix _)
  have hspell := hi.spell.expression he hc₁
  have hsame := (delimiter_rightParen.solid_stop (hc₁.of_suffix hspell.suffix) hstop hk').1
  obtain ⟨span, e⟩ := c
  have hw : Composite.written .quoted ⟨span, e⟩ ++ r =
      ⟨.leftParen, "("⟩ :: (e.written .quoted ++ ⟨.rightParen, ")"⟩ :: r) := by
    simp [Composite.written]
  rw [hw] at hcut ⊢
  unfold composite
  refine (gets_expect _ rfl).bind fun t _ => ?_
  refine (gets_skipBlank_none ?_).bind fun _ _ => ?_
  · rw [hspell.headKind_append]
    exact hspell.headKind_ne
  refine (hi.expression he hc₁ _ ?_ (.inl rfl) (hcut.of_suffix (List.suffix_cons _ _))).bind
    fun e' he' => ?_
  · rw [solid_cons delimiter_rightParen.kind, hsame, hr]
  refine (gets_skipBlank_none (by simp)).bind fun _ _ => ?_
  refine (gets_expect _ rfl).bind fun _ _ => ?_
  refine (gets_spanFrom _).bind fun _ _ => .pure ?_
  simp only [Composite.unplaced, he']

theorem arg_repeats (hi : inner.Repeat inner') {a : Arg} (h : arg inner s = .ok a s')
    (hc : Cut s.pieces) :
    Repeats (arg inner') (a.written .quoted) Follows s'.pieces
      (fun a' => a'.unplaced = a.unplaced) := by
  intro r hr hf hcut
  have hk := (arg_spells hi.spell h hc).headKind_append r
  obtain ⟨s₁, hs₁, h⟩ := arg_ok h
  rw [← hs₁] at hc
  unfold arg
  refine gets_peekKind.bind fun k hk' => ?_
  rw [hk] at hk'
  rcases h with ⟨hp, c, hrun, rfl⟩ | ⟨hp, c, hrun, rfl⟩
  · rw [if_pos (hk'.trans hp)]
    refine (composite_repeats hi hrun hc r hr trivial hcut).bind fun c' hc' => .pure ?_
    simp only [Arg.unplaced, hc']
  · rw [if_neg (by rw [hk']; exact hp)]
    refine (hi.comparable hrun hc r hr hf hcut).bind fun c' hc' => .pure ?_
    simp only [Arg.unplaced, hc']

/-! ## Lists in delimiters -/

section Lists

variable {α β : Type} {w : α → List Piece} {C : α → Prop} {u : α → β} {item item' : Parser α}
  {b : Brackets} {c : Piece}

/-- An item spells its pieces and is read again from them. -/
def ItemRepeats (item' : Parser α) (w : α → List Piece) (C : α → Prop) (u : α → β)
    (ps : List Piece) (a : α) (ps' : List Piece) : Prop :=
  Spells ps ps' (w a) (C a) ∧ Repeats item' (w a) Follows ps' (fun a' => u a' = u a)

theorem items_front {close : Kind} {ps ps' : List Piece} {as : List α}
    (h : Items (ItemRepeats item' w C u) close ps as ps') (rs : List Piece) :
    headKind ([comma].intercalate (as.map w) ++ rs) = headKind ps ∧ headKind ps ≠ .whitespace := by
  cases h with
  | last item stop kind =>
    exact ⟨by simpa using item.1.headKind_append rs, item.1.headKind_ne⟩
  | cons item stop kind tail =>
    refine ⟨?_, item.1.headKind_ne⟩
    rw [List.map_cons, intercalate_eq, List.append_assoc]
    exact item.1.headKind_append _

theorem length_le_intercalate (w : α → List Piece) : ∀ as : List α,
    as.length ≤ ([comma].intercalate (as.map w)).length + 1
  | [] => by simp
  | [a] => by simp
  | a :: a' :: as => by
    have := length_le_intercalate w (a' :: as)
    simp only [List.map_cons, List.intercalate_cons_cons, List.length_append, List.length_cons] at *
    omega

/-- The items of a list are read again, one behind the other, up to the closing delimiter. -/
theorem gets_items (hclose : Delimiter c) (hb : b.close = c.kind)
    (hcomma : c.kind ≠ .comma) (hfollow : ∀ r, Follows (c :: r)) {ps ps' : List Piece}
    {as : List α} (h : Items (ItemRepeats item' w C u) c.kind ps as ps') (hc : Cut ps) :
    ∀ (r : List Piece) (fuel : Nat), solid r = solid ps' → as.length ≤ fuel →
      Cut ([comma].intercalate (as.map w) ++ c :: r) →
      Gets (itemsFrom o' b item' fuel) ([comma].intercalate (as.map w) ++ c :: r)
        (fun as' => as'.map u = as.map u) r := by
  induction h with
  | @last ps ps₁ ps' a p item stop kind =>
    intro r fuel hr hfuel hcut
    obtain ⟨hsame, -⟩ := hclose.solid_stop (hc.of_suffix item.1.suffix) stop kind
    obtain ⟨fuel, rfl⟩ : ∃ n, fuel = n + 1 := ⟨fuel - 1, by simp at hfuel; omega⟩
    simp only [List.map_cons, List.map_nil, List.intercalate_singleton] at hcut ⊢
    have hitem := item.2 (c :: r) (by rw [solid_cons hclose.kind, hsame, hr]) (hfollow r) hcut
    refine (gets_itemsFrom_last hitem hb.symm (by rw [hb]; exact hcomma)
      (by rw [hb]; exact hclose.kind) fuel).mono ?_
    rintro as' ⟨a', rfl, ha'⟩
    simp [ha']
  | @cons ps ps₁ ps₂ ps' a as p item stop kind tail ih =>
    intro r fuel hr hfuel hcut
    obtain ⟨hsame, hsuf⟩ := delimiter_comma.solid_stop (hc.of_suffix item.1.suffix) stop kind
    have hsuf₂ := (unblank_suffix ps₂).trans (hsuf.trans item.1.suffix)
    obtain ⟨fuel, rfl⟩ : ∃ n, fuel = n + 1 := ⟨fuel - 1, by simp at hfuel; omega⟩
    have hw : [comma].intercalate ((a :: as).map w) ++ c :: r =
        w a ++ comma :: ([comma].intercalate (as.map w) ++ c :: r) := by
      cases tail <;> simp
    rw [hw] at hcut ⊢
    have hcut' : Cut ([comma].intercalate (as.map w) ++ c :: r) :=
      hcut.of_suffix ((List.suffix_cons _ _).trans (List.suffix_append _ _))
    have htail := ih (hc.of_suffix hsuf₂) r fuel hr (by simpa using hfuel) hcut'
    have hrest := (Spells.items hclose (tail.mono And.left) (hc.of_suffix hsuf₂)).same
    rw [solid_unblank] at hrest
    have hitem := item.2 (comma :: ([comma].intercalate (as.map w) ++ c :: r)) (by
      rw [solid_cons delimiter_comma.kind, hsame, hrest]
      simp [solid_cons hclose.kind, hr]) (by simp [Follows, comma]) hcut
    have hfront := items_front tail (c :: r)
    refine (gets_itemsFrom_cons hitem (by rw [hfront.1]; exact hfront.2) htail).mono ?_
    rintro as' ⟨a', as'', rfl, ha', has''⟩
    rw [List.map_cons, List.map_cons, ha', has'']

theorem gets_delimited (hclose : Delimiter c) (hb : b.close = c.kind)
    (hcomma : c.kind ≠ .comma) (hfollow : ∀ r, Follows (c :: r))
    (hitem : ∀ {s a s'}, item s = .ok a s' → Cut s.pieces →
      ItemRepeats item' w C u s.pieces a s'.pieces)
    {as : List α} (h : delimited o b item s = .ok as s') (hc : Cut s.pieces) :
    Repeats (delimited o' b item') ([comma].intercalate (as.map w) ++ [c]) (fun _ => True)
      s'.pieces (fun as' => as'.map u = as.map u) := by
  intro r hr _ hcut
  have hne : b.close ≠ .eof := by
    intro he
    have := hclose.spelling
    rw [← hb, he] at this
    cases this
  have hitem' : ∀ {s a s'}, item s = .ok a s' → Cut s.pieces →
      ItemRepeats item' w C u s.pieces a s'.pieces ∧ s'.pieces <:+ s.pieces ∧
        s'.pieces.length < s.pieces.length := fun h hc =>
    ⟨hitem h hc, (hitem h hc).1.suffix, (hitem h hc).1.length_lt⟩
  rw [List.append_assoc, List.cons_append, List.nil_append] at hcut ⊢
  unfold delimited
  rcases delimited_ok (T := ItemRepeats item' w C u) hne hitem' h hc with
    ⟨rfl, -, -, -⟩ | ⟨hnot, hitems⟩
  · simp only [List.map_nil, List.intercalate_nil, List.nil_append]
    refine (gets_innerBlank (by exact hclose.kind) _).bind fun _ _ => ?_
    refine (gets_eat c hb.symm).bind fun x hx => ?_
    obtain ⟨t, rfl⟩ := Option.isSome_iff_exists.1 hx
    exact .pure rfl
  · have hfront := items_front hitems (c :: r)
    rw [hb] at hitems
    refine (gets_innerBlank (by rw [hfront.1]; exact hfront.2) _).bind fun _ _ => ?_
    refine (gets_eat_none (by rw [hfront.1]; exact hnot)).bind fun x hx => ?_
    subst hx
    intro t ht
    have hlen : t.rest.length = ([comma].intercalate (as.map w) ++ c :: r).length := by
      rw [← ht.pieces, ParseState.pieces, List.length_map]
    have hle := length_le_intercalate w as
    simp only [List.length_append, List.length_cons] at hlen
    exact gets_items hclose hb hcomma hfollow hitems (hc.of_suffix (unblank_suffix _)) r _ hr
      (by omega) hcut t ht

end Lists

/-! ## Comparables -/

theorem gets_dottedLeaf (l : Leaf) (r : List Piece) :
    Gets dottedLeaf (dot :: ofLeaf .quoted l :: r)
      (fun x => ∃ l', x = some l' ∧ l'.unplaced = l.unplaced) r := by
  unfold dottedLeaf
  refine gets_peekKind.bind fun k hk => ?_
  rw [if_pos (show k = .dot from hk)]
  refine (gets_next dot).bind fun _ _ => ?_
  refine (gets_next _).bind fun t ht => ?_
  exact (gets_leaf ht _).bind fun l' hl' => .pure ⟨l', rfl, hl'⟩

theorem gets_fields {r : List Piece} (hr : headKind r ≠ .dot) (fields : List Leaf) :
    Gets (many dottedLeaf) ((fields.flatMap fun l => [dot, ofLeaf .quoted l]) ++ r)
      (fun fields' => fields'.map Leaf.unplaced = fields.map Leaf.unplaced) r := by
  have hstop : Gets dottedLeaf r (· = none) r := by
    unfold dottedLeaf
    refine gets_peekKind.bind fun k hk => ?_
    rw [if_neg (by rw [hk]; exact hr)]
    exact .pure rfl
  have hgives : ∀ fields : List Leaf, Gives dottedLeaf Leaf.unplaced
      ((fields.flatMap fun l => [dot, ofLeaf .quoted l]) ++ r) fields r := by
    intro fields
    induction fields with
    | nil => exact .nil hstop
    | cons l fields ih => exact .cons (gets_dottedLeaf l _) ih
  refine gets_many (hgives fields) ?_
  simp only [List.length_append, List.length_flatMap, List.length_cons, List.length_nil,
    List.map_const', List.sum_replicate_nat]
  omega

theorem structEntry_repeats (hi : inner.Repeat inner') {e : StructEntry}
    (h : structEntry o inner s = .ok e s') (hc : Cut s.pieces) :
    Repeats (structEntry o' inner') (e.written .quoted) Follows s'.pieces
      (fun e' => e'.unplaced = e.unplaced) := by
  intro r hr hf hcut
  obtain ⟨p, ps, ps', s₁, hps, hstop, hk, hs₁, hv⟩ := structEntry_ok h
  have hc' : Cut ps := hc.of_suffix (hps ▸ List.suffix_cons _ _)
  obtain ⟨-, hsuf⟩ := delimiter_colon.solid_stop hc' hstop hk
  have hc₁ : Cut s₁.pieces := by
    rw [hs₁]
    exact hc'.of_suffix ((unblank_suffix _).trans hsuf)
  have hspell := hi.spell.comparable hv hc₁
  obtain ⟨name, value⟩ := e
  rw [StructEntry.written, List.cons_append, List.cons_append] at hcut ⊢
  have hcut' : Cut (value.written .quoted ++ r) :=
    hcut.of_suffix ((List.suffix_cons _ _).trans (List.suffix_cons _ _))
  unfold structEntry
  refine (gets_next _).bind fun t ht => ?_
  refine (gets_leaf ht _).bind fun name' hname' => ?_
  refine (gets_innerBlank (by simp [colon]) _).bind fun _ _ => ?_
  refine (gets_expect colon rfl).bind fun _ _ => ?_
  refine (gets_innerBlank (by rw [hspell.headKind_append]; exact hspell.headKind_ne) _).bind
    fun _ _ => ?_
  refine (hi.comparable hv hc₁ r hr hf hcut').bind fun value' hvalue' => .pure ?_
  simp only [StructEntry.unplaced, hname', hvalue']

/-- A call is read again from what comes behind its name. -/
theorem call_repeats (hi : inner.Repeat inner') {name name' : List Leaf} {start start' : Position}
    {x : Call} (h : call o inner name start s = .ok x s') (hc : Cut s.pieces)
    (hname : name'.map Leaf.unplaced = name.map Leaf.unplaced) :
    Repeats (call o' inner' name' start') (⟨.leftParen, "("⟩ ::
        ([comma].intercalate (writtenArgs .quoted x.args) ++ [⟨.rightParen, ")"⟩]))
      (fun _ => True) s'.pieces (fun x' => x'.unplaced = x.unplaced) := by
  intro r hr _ hcut
  obtain ⟨p, s₁, hps, hk, rfl, hargs⟩ := call_ok h
  have hc₁ : Cut s₁.pieces := hc.of_suffix (hps ▸ List.suffix_cons _ _)
  rw [writtenArgs_eq, List.cons_append] at hcut ⊢
  unfold call
  refine (gets_expect _ rfl).bind fun _ _ => ?_
  refine (gets_delimited delimiter_rightParen rfl (by simp) (by simp [Follows])
    (fun h hc => ⟨arg_spells hi.spell h hc, arg_repeats hi h hc⟩) hargs hc₁ r hr trivial
    (hcut.of_suffix (List.suffix_cons _ _))).bind fun args' hargs' => ?_
  refine (gets_spanFrom _).bind fun _ _ => .pure ?_
  obtain ⟨span, name, args⟩ := x
  simp only [Call.unplaced, unplacedArgs_eq, hargs', hname]

theorem arrayLiteral_repeats (hi : inner.Repeat inner') {x : ArrayLiteral}
    (h : arrayLiteral o inner s = .ok x s') (hc : Cut s.pieces) :
    Repeats (arrayLiteral o' inner') (x.written .quoted) (fun _ => True) s'.pieces
      (fun x' => x'.unplaced = x.unplaced) := by
  intro r hr _ hcut
  obtain ⟨p, s₁, hps, hk, helems⟩ := arrayLiteral_ok h
  have hc₁ : Cut s₁.pieces := hc.of_suffix (hps ▸ List.suffix_cons _ _)
  obtain ⟨span, elements⟩ := x
  rw [ArrayLiteral.written, writtenElements_eq, List.cons_append, List.cons_append] at hcut ⊢
  unfold arrayLiteral
  refine (gets_expect _ rfl).bind fun _ _ => ?_
  refine (gets_delimited delimiter_rightBracket rfl (by simp) (by simp [Follows])
    (fun h hc => ⟨hi.spell.comparable h hc, hi.comparable h hc⟩) helems hc₁ r hr trivial
    (hcut.of_suffix (List.suffix_cons _ _))).bind fun elements' helems' => ?_
  refine (gets_spanFrom _).bind fun _ _ => .pure ?_
  simp only [ArrayLiteral.unplaced, unplacedElements_eq, helems']

theorem structLiteral_repeats (hi : inner.Repeat inner') {name name' : List Leaf}
    {start start' : Position} {x : StructLiteral}
    (h : structLiteral o inner name start s = .ok x s') (hc : Cut s.pieces)
    (hname : name'.map Leaf.unplaced = name.map Leaf.unplaced) :
    Repeats (structLiteral o' inner' name' start') (⟨.leftBrace, "\x7b"⟩ ::
        ([comma].intercalate (writtenEntries .quoted x.entries) ++ [⟨.rightBrace, "\x7d"⟩]))
      (fun _ => True) s'.pieces (fun x' => x'.unplaced = x.unplaced) := by
  intro r hr _ hcut
  obtain ⟨p, s₁, hps, hk, rfl, hentries⟩ := structLiteral_ok h
  have hc₁ : Cut s₁.pieces := hc.of_suffix (hps ▸ List.suffix_cons _ _)
  rw [writtenEntries_eq, List.cons_append] at hcut ⊢
  unfold structLiteral
  refine (gets_expect _ rfl).bind fun _ _ => ?_
  refine (gets_delimited delimiter_rightBrace rfl (by simp) (by simp [Follows])
    (fun h hc => ⟨structEntry_spells hi.spell h hc, structEntry_repeats hi h hc⟩) hentries hc₁ r hr
    trivial (hcut.of_suffix (List.suffix_cons _ _))).bind fun entries' hentries' => ?_
  refine (gets_spanFrom _).bind fun _ _ => .pure ?_
  obtain ⟨span, name, entries⟩ := x
  simp only [StructLiteral.unplaced, unplacedEntries_eq, hentries', hname]

theorem gets_checkName {path path' : List Leaf} {ps : List Piece} (what : String)
    (hid : ∀ l ∈ path, l.isIdentifier = true)
    (hpath : path'.map Leaf.unplaced = path.map Leaf.unplaced) :
    Gets (checkName path' what) ps (fun _ => True) ps := by
  have hid' : ∀ l ∈ path', l.isIdentifier = true := by
    intro l hl
    have hmem : l.unplaced ∈ path.map Leaf.unplaced := by
      rw [← hpath]
      exact List.mem_map_of_mem hl
    obtain ⟨l₁, hl₁, he⟩ := List.mem_map.1 hmem
    have hkind : l₁.unplaced.kind = l.unplaced.kind := congrArg Leaf.kind he
    have := hid l₁ hl₁
    rwa [Leaf.isIdentifier, show l₁.kind = l.kind from hkind] at this
  have hnone : path'.find? (fun l => !l.isIdentifier) = none :=
    List.find?_eq_none.2 fun l hl => by simp [hid' l hl]
  simp only [checkName, hnone]
  exact .pure trivial

/-- A dotted name is read again before anything but a dot. -/
theorem gets_name {value : Leaf} {fields : List Leaf} {rest r : List Piece} {what : String}
    {P : Comparable → Prop} {f : Token → Leaf → List Leaf → Parser Comparable}
    (hdot : headKind rest ≠ .dot)
    (hf : ∀ t value' fields', (value' :: fields').map Leaf.unplaced =
      (value :: fields).map Leaf.unplaced → Gets (f t value' fields') rest P r) :
    Gets (next >>= fun t => leaf t what >>= fun value' =>
      many dottedLeaf >>= fun fields' => f t value' fields')
      (ofPath .quoted (value :: fields) ++ rest) P r := by
  rw [ofPath_cons, List.cons_append]
  refine (gets_next _).bind fun t ht => ?_
  refine (gets_leaf ht _).bind fun value' hvalue' => ?_
  refine (gets_fields hdot fields).bind fun fields' hfields' => hf t value' fields' ?_
  rw [List.map_cons, List.map_cons, hvalue', hfields']

theorem nameRun_repeats (ho : o.SameGrammar o') (hi : inner.Repeat inner') {c : Comparable}
    (h : nameRun o inner s = .ok c s') (hc : Cut s.pieces) :
    Repeats (nameRun o' inner') (c.written .quoted) Follows s'.pieces
      (fun c' => c'.unplaced = c.unplaced) := by
  intro r hr hf hcut
  obtain ⟨value, fields, s₁, s₂, s₃, hps, hfields, hs₃, h⟩ := nameRun_ok h
  have hpath : s.pieces = ofPath .quoted (value :: fields) ++ s₂.pieces := by
    rw [hps] at hc ⊢
    exact path_ok hfields hc
  have hc₃ : Cut s₃.pieces := by
    rw [hs₃]
    exact hc.of_suffix (hpath ▸ List.suffix_append _ _)
  unfold nameRun
  rcases h with ⟨-, hid, start, x, hx, rfl⟩ | ⟨-, hs, hid, start, x, hx, rfl⟩ | ⟨hs', span, rfl⟩
  · obtain ⟨_, _, -, -, hname, -⟩ := call_ok hx
    have hw : (Comparable.call x).written .quoted ++ r = ofPath .quoted (value :: fields) ++
        (⟨.leftParen, "("⟩ :: ([comma].intercalate (writtenArgs .quoted x.args) ++
          [⟨.rightParen, ")"⟩]) ++ r) := by
      obtain ⟨xspan, xname, args⟩ := x
      subst hname
      simp [Comparable.written, Call.written]
    rw [hw] at hcut ⊢
    refine gets_name (by simp) fun t value' fields' hnames => ?_
    refine gets_peekKind.bind fun k hk => ?_
    obtain rfl : k = .leftParen := hk
    refine (gets_checkName _ hid hnames).bind fun _ _ => ?_
    refine (call_repeats hi hx hc₃ hnames r hr trivial
      (hcut.of_suffix (List.suffix_append _ _))).bind fun x' hx' => .pure ?_
    simp only [Comparable.unplaced, hx']
  · obtain ⟨_, _, -, -, hname, -⟩ := structLiteral_ok hx
    have hw : (Comparable.struct x).written .quoted ++ r = ofPath .quoted (value :: fields) ++
        (⟨.leftBrace, "\x7b"⟩ :: ([comma].intercalate (writtenEntries .quoted x.entries) ++
          [⟨.rightBrace, "\x7d"⟩]) ++ r) := by
      obtain ⟨xspan, xname, entries⟩ := x
      subst hname
      simp [Comparable.written, StructLiteral.written]
    rw [hw] at hcut ⊢
    refine gets_name (by simp) fun t value' fields' hnames => ?_
    refine gets_peekKind.bind fun k hk => ?_
    obtain rfl : k = .leftBrace := hk
    simp only [ho.structs, hs, ↓reduceIte]
    refine (gets_checkName _ hid hnames).bind fun _ _ => ?_
    refine (structLiteral_repeats hi hx hc₃ hnames r hr trivial
      (hcut.of_suffix (List.suffix_append _ _))).bind fun x' hx' => .pure ?_
    simp only [Comparable.unplaced, hx']
  · have hnot : headKind r ≠ .dot ∧ headKind r ≠ .leftParen ∧ headKind r ≠ .leftBrace := by
      simp only [Follows, List.mem_cons, List.not_mem_nil, or_false] at hf
      rcases hf with h | h | h | h | h | h | h <;> simp [h]
    refine gets_name hnot.1 fun t value' fields' hnames => ?_
    refine gets_peekKind.bind fun k hk => ?_
    split
    · exact absurd hk.symm hnot.2.1
    · exact absurd hk.symm hnot.2.2
    · refine (gets_spanFrom _).bind fun _ _ => .pure ?_
      obtain ⟨hvalue', hfields'⟩ := List.cons.inj hnames
      simp only [Comparable.unplaced, Member.unplaced, hvalue', hfields']

theorem comparableBody_repeats (ho : o.SameGrammar o') (hi : inner.Repeat inner') {c : Comparable}
    (h : comparableBody o inner s = .ok c s') (hc : Cut s.pieces) :
    Repeats (comparableBody o' inner') (c.written .quoted) Follows s'.pieces
      (fun c' => c'.unplaced = c.unplaced) := by
  intro r hr hf hcut
  have hk := (comparableBody_spells hi.spell h hc).1.headKind_append r
  obtain ⟨s₁, hs₁, h⟩ := comparableBody_ok h
  rw [← hs₁] at hc
  unfold comparableBody
  refine gets_peek.bind fun t ht => ?_
  rw [hk] at ht
  rcases h with ⟨hb, hflag, x, hx, rfl⟩ | ⟨hb, hflag, start, x, hx, rfl⟩ | ⟨hleaf, hx⟩
  · rw [if_pos ⟨ht.trans hb, ho.arrays.trans hflag⟩]
    refine (arrayLiteral_repeats hi hx hc r hr trivial hcut).bind fun x' hx' => .pure ?_
    simp only [Comparable.unplaced, hx']
  · rw [if_neg (by simp [ht.trans hb]), if_pos ⟨ht.trans hb, ho.structs.trans hflag⟩]
    obtain ⟨_, _, -, -, hname, -⟩ := structLiteral_ok hx
    have hw : (Comparable.struct x).written .quoted ++ r =
        ⟨.leftBrace, "\x7b"⟩ :: ([comma].intercalate (writtenEntries .quoted x.entries) ++
          [⟨.rightBrace, "\x7d"⟩]) ++ r := by
      obtain ⟨xspan, xname, entries⟩ := x
      subst hname
      simp [Comparable.written, StructLiteral.written]
    rw [hw] at hcut ⊢
    refine (structLiteral_repeats hi hx hc rfl r hr trivial hcut).bind fun x' hx' => .pure ?_
    simp only [Comparable.unplaced, hx']
  · have hnot : t.kind ≠ .leftBracket ∧ t.kind ≠ .leftBrace := by
      rw [ht]
      constructor <;> intro hb <;> rw [hb] at hleaf <;> cases hleaf
    rw [if_neg (fun h => hnot.1 h.1), if_neg (fun h => hnot.2 h.1), if_pos (by rw [ht]; exact hleaf)]
    exact nameRun_repeats ho hi hx hc r hr hf hcut

end Parser

end ListQuery.Filter
