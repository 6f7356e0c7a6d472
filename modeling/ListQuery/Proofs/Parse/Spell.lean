/-
Runs that spell a tree. A run takes pieces and gives a value whose written form has the same pieces,
blanks apart (`Spells`). The written form reads back, whatever stops it, under a condition that the
value decides. Runs one behind the other and runs between commas spell the joined forms.
-/
import ListQuery.Proofs.Parse.Invert
import ListQuery.Proofs.Token.Seam
import ListQuery.Proofs.Tree.Shape

namespace ListQuery.Filter

namespace Piece

/-- The pieces that are no blanks. -/
def solid (ps : List Piece) : List Piece := ps.filter fun p => p.kind != .whitespace

@[simp] theorem solid_nil : solid [] = [] := rfl

@[simp] theorem solid_append (ps qs : List Piece) : solid (ps ++ qs) = solid ps ++ solid qs :=
  List.filter_append ..

@[simp] theorem solid_blank (ps : List Piece) : solid (blank :: ps) = solid ps := rfl

theorem solid_cons {p : Piece} (hp : p.kind ≠ .whitespace) (ps : List Piece) :
    solid (p :: ps) = p :: solid ps := by
  simp [solid, hp]

theorem solid_cons_blank {p : Piece} (hp : p.kind = .whitespace) (ps : List Piece) :
    solid (p :: ps) = solid ps := by
  simp [solid, hp]

@[simp] theorem solid_unblank (ps : List Piece) : solid (unblank ps) = solid ps := by
  cases ps with
  | nil => rfl
  | cons p ps =>
    by_cases h : p.kind = .whitespace
    · rw [unblank_cons_blank h, solid_cons_blank h]
    · rw [unblank_cons h]

theorem solid_eq_self {ps : List Piece} (h : ∀ p ∈ ps, p.kind ≠ .whitespace) : solid ps = ps := by
  simpa [solid] using h

theorem ofLeaf_kind_ne (q : Quoting) (l : Leaf) : (ofLeaf q l).kind ≠ .whitespace := by
  intro hk
  have := l.leaf
  rw [show l.token.kind = .whitespace from hk] at this
  cases this

theorem solid_ofPath (path : List Leaf) : solid (ofPath .quoted path) = ofPath .quoted path := by
  refine solid_eq_self fun p hp hk => ?_
  cases path with
  | nil => cases hp
  | cons l ls =>
    simp only [ofPath_cons, List.mem_cons, List.mem_flatMap, List.not_mem_nil, or_false] at hp
    -- every piece of a name is a dot or a leaf
    have : p = dot ∨ ∃ l : Leaf, p = ofLeaf .quoted l := by
      rcases hp with rfl | ⟨l', -, rfl | rfl⟩
      · exact .inr ⟨l, rfl⟩
      · exact .inl rfl
      · exact .inr ⟨l', rfl⟩
    rcases this with rfl | ⟨l', rfl⟩
    · cases hk
    · exact ofLeaf_kind_ne _ l' hk

/-- No piece is illegal. -/
def Legal (ps : List Piece) : Prop := ∀ p ∈ ps, p.kind.isIllegal = false

@[simp] theorem legal_nil : Legal [] := by simp [Legal]

@[simp] theorem legal_cons {p : Piece} {ps : List Piece} :
    Legal (p :: ps) ↔ p.kind.isIllegal = false ∧ Legal ps := by
  simp [Legal]

@[simp] theorem legal_append {ps qs : List Piece} : Legal (ps ++ qs) ↔ Legal ps ∧ Legal qs := by
  simp only [Legal, List.mem_append, or_imp, forall_and]

theorem legal_ofPath : ∀ path : List Leaf, Legal (ofPath .quoted path)
  | [] => by simp
  | [l] => legal_cons.2 ⟨Kind.isIllegal_of_isLeaf l.leaf, legal_nil⟩
  | l :: l' :: ls => by
    rw [ofPath_cons_cons, legal_cons, legal_cons]
    exact ⟨Kind.isIllegal_of_isLeaf l.leaf, rfl, legal_ofPath (l' :: ls)⟩

/-- Legal, and if it is a blank, then one that ends where the text behind it starts. -/
def Tidy (p : Piece) (r : List Char) : Prop :=
  p.kind.isIllegal = false ∧ (p.kind = .whitespace → p.Lexes r)

theorem legal_of_chain : ∀ {ps : List Piece} {r : List Char}, Chain Tidy ps r → Legal ps
  | [], _, _ => legal_nil
  | _ :: _, _, h => legal_cons.2 ⟨h.1.1, legal_of_chain h.2⟩

/-- Legal pieces that read back are tidy. -/
theorem Legal.tidy : ∀ {ps : List Piece} {r : List Char}, Legal ps → Chain Lexes ps r →
    Chain Tidy ps r
  | [], _, _, _ => trivial
  | _ :: _, _, hl, h =>
    ⟨⟨(legal_cons.1 hl).1, fun _ => h.1⟩, Legal.tidy (legal_cons.1 hl).2 h.2⟩

/-- Legal pieces without a blank are tidy. -/
theorem Legal.tidy_of_solid : ∀ {ps : List Piece} (r : List Char), Legal ps → solid ps = ps →
    Chain Tidy ps r
  | [], _, _, _ => trivial
  | p :: ps, r, hl, hs => by
    have hp : p.kind ≠ .whitespace := by
      have : p ∈ solid (p :: ps) := by rw [hs]; simp
      simpa [solid] using (List.mem_filter.1 this).2
    rw [solid_cons hp] at hs
    exact ⟨⟨(legal_cons.1 hl).1, fun hk => absurd hk hp⟩,
      Legal.tidy_of_solid r (legal_cons.1 hl).2 (List.cons.inj hs).2⟩

theorem tidy_ofPath (path : List Leaf) (r : List Char) : Chain Tidy (ofPath .quoted path) r :=
  (legal_ofPath path).tidy_of_solid r (solid_ofPath path)

theorem Delimiter.legal {p : Piece} (h : Delimiter p) : p.kind.isIllegal = false := by
  have := h.spelling
  cases hk : p.kind with
  | illegal fault => rw [hk] at this; cases this
  | _ => rfl

theorem Delimiter.tidy {p : Piece} (h : Delimiter p) (r : List Char) : p.Tidy r :=
  ⟨h.legal, fun hk => absurd hk h.kind⟩

/-- No blank stands behind a blank. -/
theorem Cut.headKind_unblank {ps : List Piece} (h : Cut ps) :
    headKind (unblank ps) ≠ .whitespace := by
  cases ps with
  | nil => simp
  | cons p ps =>
    by_cases hp : p.kind = .whitespace
    · rw [unblank_cons_blank hp]
      cases ps with
      | nil => simp
      | cons q qs =>
        intro hq
        have hafter := h.head.after_blank hp
        obtain ⟨c, cs, ht, hiff⟩ := (h.of_suffix (List.suffix_cons p _)).head.head
        have hw := hafter c (by simp [ht])
        rw [hiff.2 hq] at hw
        cases hw
    · rw [unblank_cons hp]
      exact hp

theorem Cut.headKind_solid {ps : List Piece} (h : Cut ps) :
    headKind (unblank ps) = headKind (solid ps) := by
  rw [← solid_unblank]
  have hk := h.headKind_unblank
  cases hu : unblank ps with
  | nil => rfl
  | cons p qs =>
    rw [hu] at hk
    rw [solid_cons hk]
    rfl

theorem unblank_solid (ps : List Piece) : unblank (solid ps) = solid ps := by
  refine unblank_eq_self ?_
  cases hs : solid ps with
  | nil => simp
  | cons p qs =>
    have hp : p ∈ solid ps := by simp [hs]
    simpa [solid] using (List.mem_filter.1 hp).2

theorem Cut.secondKind_solid {ps : List Piece} (h : Cut ps) :
    secondKind (unblank ps) = secondKind (solid ps) := by
  rw [← solid_unblank]
  have hk := h.headKind_unblank
  have hc : Cut (unblank ps) := h.of_suffix (unblank_suffix ps)
  cases hu : unblank ps with
  | nil => rfl
  | cons p qs =>
    rw [hu] at hk hc
    rw [solid_cons hk]
    simp only [secondKind, List.tail_cons, unblank_solid]
    exact (hc.of_suffix (List.suffix_cons p qs)).headKind_solid

/-- The pieces behind a word in front, blanks before and behind it skipped. -/
theorem Cut.solid_word {ps : List Piece} (hc : Cut ps) {k : Kind} {x : String}
    (hk : headKind (unblank ps) = k) (hx : k.spelling? = some x) :
    unblank (unblank ps).tail <:+ ps ∧
      solid ps = ⟨k, x⟩ :: solid (unblank (unblank ps).tail) := by
  have hne : k ≠ .eof ∧ k ≠ .whitespace := by
    constructor <;> rintro rfl <;> cases hx
  obtain ⟨p, qs, hp, hpk⟩ := exists_cons_of_headKind hk hne.1
  have hup : p :: qs <:+ ps := hp ▸ unblank_suffix ps
  have hpe : p = ⟨k, x⟩ := (hc.of_suffix hup).head.eq_of_kind hpk hx
  rw [hp, List.tail_cons]
  refine ⟨(unblank_suffix _).trans ((List.suffix_cons _ _).trans hup), ?_⟩
  rw [← solid_unblank ps, hp, solid_cons (by rw [hpk]; exact hne.2), solid_unblank, hpe]

end Piece

open Piece

/-- A run took pieces from `ps` and left `ps'`. What it gave is written as `w`; that starts with the
piece that was in front, has the pieces that were taken, is tidy, and reads back just when `C`
holds. -/
structure Spells (ps ps' w : List Piece) (C : Prop) : Prop where
  front : ∃ p qs qs', ps = p :: qs ∧ w = p :: qs' ∧ p.kind ≠ .whitespace ∧ ps' <:+ qs
  same : solid ps = solid w ++ solid ps'
  tidy : ∀ r, Chain Tidy w r
  reads : ∀ r, Stops r → (Chain Lexes w r ↔ C)

namespace Spells

variable {ps ps' w : List Piece} {C D : Prop}

theorem congr (h : Spells ps ps' w C) (hC : C ↔ D) : Spells ps ps' w D :=
  ⟨h.front, h.same, h.tidy, fun r hr => (h.reads r hr).trans hC⟩

theorem suffix (h : Spells ps ps' w C) : ps' <:+ ps := by
  obtain ⟨p, qs, _, rfl, -, -, hs⟩ := h.front
  exact hs.trans (List.suffix_cons p qs)

theorem length_lt (h : Spells ps ps' w C) : ps'.length < ps.length := by
  obtain ⟨p, qs, _, rfl, -, -, hs⟩ := h.front
  have := hs.length_le
  simp only [List.length_cons]
  omega

theorem headKind_append (h : Spells ps ps' w C) (rs : List Piece) :
    headKind (w ++ rs) = headKind ps := by
  obtain ⟨p, qs, qs', rfl, rfl, -, -⟩ := h.front
  rfl

theorem headKind_ne (h : Spells ps ps' w C) : headKind ps ≠ .whitespace := by
  obtain ⟨p, qs, qs', rfl, -, hk, -⟩ := h.front
  exact hk

theorem unblank_append (h : Spells ps ps' w C) (rs : List Piece) :
    unblank (w ++ rs) = w ++ rs :=
  unblank_eq_self (by rw [h.headKind_append]; exact h.headKind_ne)

theorem dark (h : Spells ps ps' w C) (hc : Cut ps) (r : List Char) : Dark (chars w ++ r) := by
  obtain ⟨p, qs, qs', rfl, rfl, hk, -⟩ := h.front
  rw [chars_cons, List.append_assoc]
  exact hc.head.dark hk _

/-- More pieces behind a spelled run, which start so that they stop it. -/
theorem append (h : Spells ps ps' w C) {ps₂ v : List Piece} (hsuf : ps₂ <:+ ps')
    (hsame : solid ps' = solid v ++ solid ps₂) (htidy : ∀ r, Chain Tidy v r)
    (hv : ∀ r, Stops r → Stops (chars v ++ r) ∧ (Chain Lexes v r ↔ D)) :
    Spells ps ps₂ (w ++ v) (C ∧ D) := by
  obtain ⟨p, qs, qs', rfl, rfl, hk, hs⟩ := h.front
  refine ⟨⟨p, qs, _, rfl, rfl, hk, hsuf.trans hs⟩, ?_,
    fun r => (chain_append _ _ _).2 ⟨h.tidy _, htidy r⟩, fun r hr => ?_⟩
  · rw [h.same, hsame, solid_append, List.append_assoc]
  · rw [chain_append, h.reads _ (hv r hr).1, (hv r hr).2]

/-- One piece before a spelled run, written with blanks or without. -/
theorem cons {p : Piece} (hp : p.kind ≠ .whitespace) {qs : List Piece}
    (h : Spells (unblank qs) ps' w C) (blanks : List Piece) (hblanks : solid blanks = [])
    (htidy : ∀ r, Chain Tidy (p :: blanks) (chars w ++ r))
    (hr : ∀ r, Stops r → (Chain Lexes (p :: blanks) (chars w ++ r) ↔ D)) :
    Spells (p :: qs) ps' (p :: blanks ++ w) (D ∧ C) := by
  refine ⟨⟨p, qs, _, rfl, rfl, hp, h.suffix.trans (unblank_suffix qs)⟩, ?_,
    fun r => (chain_append _ _ _).2 ⟨htidy r, h.tidy r⟩, fun r hstop => ?_⟩
  · rw [List.cons_append, solid_cons hp, solid_cons hp, solid_append, hblanks, List.nil_append,
      ← solid_unblank qs, h.same, List.cons_append]
  · rw [chain_append, hr r hstop, h.reads r hstop]

end Spells

/-! ## Runs behind separators -/

/-- What stands between the members of a run: a blank first, and nothing that reads on into dark
text. -/
structure Separates (sep : List Piece) : Prop where
  blank : ∃ rest, sep = blank :: rest
  legal : Legal sep
  reads : ∀ r, Dark r → Chain Lexes sep r

theorem separates_blank : Separates [blank] :=
  ⟨⟨[], rfl⟩, by simp [blank, Kind.isIllegal], fun _ h => ⟨lexes_blank h, trivial⟩⟩

theorem separates_andWord : Separates [blank, ⟨.andWord, "AND"⟩, blank] := by
  refine ⟨⟨_, rfl⟩, by simp [Piece.blank, Kind.isIllegal],
    fun r h => ⟨lexes_blank ?_, lexes_andWord r, lexes_blank h, trivial⟩⟩
  exact (lexes_andWord r).dark (by simp) _

theorem separates_orWord : Separates [blank, ⟨.orWord, "OR"⟩, blank] := by
  refine ⟨⟨_, rfl⟩, by simp [Piece.blank, Kind.isIllegal],
    fun r h => ⟨lexes_blank ?_, lexes_orWord r, lexes_blank h, trivial⟩⟩
  exact (lexes_orWord r).dark (by simp) _

theorem Separates.stops {sep : List Piece} (h : Separates sep) (r : List Char) :
    Stops (chars sep ++ r) := by
  obtain ⟨rest, rfl⟩ := h.blank
  show Stops (' ' :: (chars rest ++ r))
  exact stops_cons (by simp) _

section Runs

variable {α : Type} {sep : List Piece} {w : α → List Piece} {C : α → Prop}

/-- One more member of a run: a separator, then a run that spells. -/
def Joined (sep : List Piece) (w : α → List Piece) (C : α → Prop) (ps : List Piece) (a : α)
    (ps' : List Piece) : Prop :=
  ∃ ps₁, ps₁ <:+ ps ∧ solid ps = solid sep ++ solid ps₁ ∧ Spells ps₁ ps' (w a) (C a)

/-- The members behind the first one, each behind its separator. -/
def writtenTail {β : Type} (sep : List β) (w : α → List β) (as : List α) : List β :=
  as.flatMap fun a => sep ++ w a

theorem intercalate_eq {β : Type} (sep : List β) (w : α → List β) (v : List β) (as : List α) :
    sep.intercalate (v :: as.map w) = v ++ writtenTail sep w as := by
  induction as generalizing v with
  | nil => simp [writtenTail]
  | cons a as ih =>
    rw [List.map_cons, List.intercalate_cons_cons, ih (w a)]
    simp [writtenTail]

theorem Joined.suffix {ps ps' : List Piece} {a : α} (h : Joined sep w C ps a ps') :
    ps' <:+ ps := by
  obtain ⟨ps₁, hs, -, ha⟩ := h
  exact ha.suffix.trans hs

theorem Joined.steps (hsep : Separates sep) {ps ps' : List Piece} {as : List α}
    (h : Parser.Steps (Joined sep w C) ps as ps') (hc : Cut ps) :
    ps' <:+ ps ∧ solid ps = solid (writtenTail sep w as) ++ solid ps' ∧
      (∀ r, Chain Tidy (writtenTail sep w as) r) ∧ ∀ r, Stops r → Stops (chars (writtenTail sep w as) ++ r) ∧
        (Chain Lexes (writtenTail sep w as) r ↔ ∀ a ∈ as, C a) := by
  induction h with
  | nil ps =>
    exact ⟨List.suffix_refl _, rfl, by simp [writtenTail], fun r hr => ⟨hr, by simp [writtenTail]⟩⟩
  | @cons ps ps₁ ps' a as head tail ih =>
    obtain ⟨ps₂, hs, hsame, ha⟩ := head
    have hc₂ := hc.of_suffix hs
    obtain ⟨hs', hsame', htidy', hr'⟩ := ih (hc₂.of_suffix ha.suffix)
    have happ : writtenTail sep w (a :: as) = sep ++ (w a ++ writtenTail sep w as) := by
      simp [writtenTail]
    have hsepOk : ∀ r, Chain Lexes sep (chars (w a ++ writtenTail sep w as) ++ r) := fun r =>
      hsep.reads _ (by rw [chars_append, List.append_assoc]; exact ha.dark hc₂ _)
    rw [happ]
    refine ⟨(hs'.trans ha.suffix).trans hs, ?_, fun r => ?_, fun r hr => ⟨?_, ?_⟩⟩
    · rw [hsame, ha.same, hsame']
      simp only [solid_append, List.append_assoc]
    · rw [chain_append, chain_append]
      exact ⟨hsep.legal.tidy (hsepOk r), ha.tidy _, htidy' r⟩
    · rw [chars_append, List.append_assoc]
      exact hsep.stops _
    · rw [chain_append, chain_append, ha.reads _ (hr' r hr).1, (hr' r hr).2]
      simp only [hsepOk r, true_and, List.mem_cons, forall_eq_or_imp]

/-- A first member and the members behind it. -/
theorem Spells.run (hsep : Separates sep) {ps ps₁ ps' v : List Piece} {D : Prop}
    (h : Spells ps ps₁ v D) {as : List α} (hs : Parser.Steps (Joined sep w C) ps₁ as ps')
    (hc : Cut ps) : Spells ps ps' (v ++ writtenTail sep w as) (D ∧ ∀ a ∈ as, C a) := by
  obtain ⟨hsuf, hsame, htidy, hr⟩ := Joined.steps hsep hs (hc.of_suffix h.suffix)
  exact h.append hsuf hsame htidy hr

end Runs

/-! ## Lists in delimiters -/

section Lists

variable {α : Type} {w : α → List Piece} {C : α → Prop}

/-- A run that ends with a delimiter reads back before any text. -/
structure Closed (ps ps' w : List Piece) (C : Prop) : Prop where
  suffix : ps' <:+ ps
  same : solid ps = solid w ++ solid ps'
  tidy : ∀ r, Chain Tidy w r
  reads : ∀ r, Chain Lexes w r ↔ C

/-- A delimiter that was met, a blank before it skipped, is the one its kind says. -/
theorem Piece.Delimiter.solid_stop {c p : Piece} (hc : Delimiter c) {ps ps' : List Piece} (h : Cut ps)
    (hstop : unblank ps = p :: ps') (hk : p.kind = c.kind) :
    solid ps = c :: solid ps' ∧ ps' <:+ ps := by
  have hu := unblank_suffix ps
  rw [hstop] at hu
  have hp : p = c := (h.of_suffix hu).head.eq_of_kind hk hc.spelling
  subst hp
  refine ⟨?_, (List.suffix_cons p ps').trans hu⟩
  rw [← solid_unblank, hstop, solid_cons hc.kind]

/-- A spelled run and the delimiter behind it. -/
theorem Spells.closed {c p : Piece} (hclose : Delimiter c) {ps ps₁ ps' v : List Piece} {D : Prop}
    (h : Spells ps ps₁ v D) (hc : Cut ps) (hstop : unblank ps₁ = p :: ps')
    (hk : p.kind = c.kind) : Closed ps ps' (v ++ [c]) D := by
  obtain ⟨hsame, hsuf⟩ := hclose.solid_stop (hc.of_suffix h.suffix) hstop hk
  refine ⟨hsuf.trans h.suffix, ?_, fun r => ?_, fun r => ?_⟩
  · rw [h.same, hsame]
    simp [solid_cons hclose.kind]
  · rw [chain_append]
    exact ⟨h.tidy _, hclose.tidy _, trivial⟩
  · simp only [chain_append, chars_cons, chars_nil, List.append_nil, chain_cons, chain_nil,
      List.nil_append, and_true, hclose.lexes r, h.reads _ (hclose.stops r)]

/-- The items of a list spell the list with its closing delimiter. -/
theorem Spells.items {c : Piece} (hclose : Delimiter c) {ps ps' : List Piece} {as : List α}
    (h : Parser.Items (fun ps a ps' => Spells ps ps' (w a) (C a)) c.kind ps as ps')
    (hc : Cut ps) :
    Closed ps ps' ([comma].intercalate (as.map w) ++ [c]) (∀ a ∈ as, C a) := by
  induction h with
  | @last ps ps₁ ps' a p item stop kind =>
    simpa using item.closed hclose hc stop kind
  | @cons ps ps₁ ps₂ ps' a as p item stop kind tail ih =>
    obtain ⟨hsame, hsuf⟩ := delimiter_comma.solid_stop (hc.of_suffix item.suffix) stop kind
    have hsuf₂ := (unblank_suffix ps₂).trans (hsuf.trans item.suffix)
    have ih := ih (hc.of_suffix hsuf₂)
    -- the list goes on, so what is left of it is not empty
    have happ : [comma].intercalate ((a :: as).map w) ++ [c] =
        w a ++ comma :: ([comma].intercalate (as.map w) ++ [c]) := by
      cases tail <;> simp
    rw [happ]
    refine ⟨ih.suffix.trans hsuf₂, ?_, fun r => ?_, fun r => ?_⟩
    · have hrest := ih.same
      rw [solid_unblank] at hrest
      rw [item.same, hsame, hrest]
      simp [solid_cons delimiter_comma.kind]
    · rw [chain_append, chain_cons]
      exact ⟨item.tidy _, delimiter_comma.tidy _, ih.tidy r⟩
    · rw [chain_append, chars_cons, List.append_assoc, item.reads _ (delimiter_comma.stops _),
        chain_cons, ih.reads r]
      simp only [lexes_comma, true_and, List.mem_cons, forall_eq_or_imp]

/-- A blank before a closed run does not matter. -/
theorem Closed.of_unblank {ps ps' v : List Piece} {D : Prop} (h : Closed (unblank ps) ps' v D) :
    Closed ps ps' v D :=
  ⟨h.suffix.trans (unblank_suffix ps), by rw [← solid_unblank]; exact h.same, h.tidy, h.reads⟩

/-- A name, or nothing, then an opening delimiter and what it encloses. -/
theorem Closed.spells {p : Piece} {ps ps' v : List Piece} {D : Prop} (h : Closed ps ps' v D)
    (hp : Delimiter p) (path : List Leaf) (hc : Cut (ofPath .quoted path ++ p :: ps)) :
    Spells (ofPath .quoted path ++ p :: ps) ps' (ofPath .quoted path ++ p :: v) D := by
  refine ⟨?_, ?_, fun r => ?_, fun r _ => ?_⟩
  · cases path with
    | nil => exact ⟨p, ps, v, rfl, rfl, hp.kind, h.suffix⟩
    | cons l ls =>
      rw [ofPath_cons]
      refine ⟨ofLeaf .quoted l, _, _, rfl, rfl, ofLeaf_kind_ne _ l, ?_⟩
      exact h.suffix.trans ((List.suffix_cons p ps).trans (List.suffix_append _ _))
  · simp only [solid_append, solid_cons hp.kind, h.same, List.append_assoc, List.cons_append]
  · rw [chain_append, chain_cons]
    exact ⟨tidy_ofPath path _, hp.tidy _, h.tidy r⟩
  · have hpath : Chain Lexes (ofPath .quoted path) (chars (p :: v) ++ r) := by
      refine chain_ofPath ?_ ((chain_append _ _ _).1 hc).1
      rw [chars_cons, List.append_assoc]
      exact hp.stops _
    simp only [chain_append, chain_cons, hpath, hp.lexes, true_and, h.reads r]

theorem delimited_closed {o : ParserOptions} {b : Parser.Brackets} {item : Parser α} {c : Piece}
    (hclose : Delimiter c) (hb : b.close = c.kind)
    (hitem : ∀ {s a s'}, item s = .ok a s' → Cut s.pieces →
      Spells s.pieces s'.pieces (w a) (C a))
    {s s' : ParseState} {as : List α} (h : Parser.delimited o b item s = .ok as s')
    (hc : Cut s.pieces) :
    Closed s.pieces s'.pieces ([comma].intercalate (as.map w) ++ [c]) (∀ a ∈ as, C a) := by
  have hne : b.close ≠ .eof := by
    intro he
    have := hclose.spelling
    rw [← hb, he] at this
    cases this
  have hitem' : ∀ {s a s'}, item s = .ok a s' → Cut s.pieces →
      Spells s.pieces s'.pieces (w a) (C a) ∧ s'.pieces <:+ s.pieces ∧
        s'.pieces.length < s.pieces.length := fun h hc =>
    ⟨hitem h hc, (hitem h hc).suffix, (hitem h hc).length_lt⟩
  rcases Parser.delimited_ok (T := fun ps a ps' => Spells ps ps' (w a) (C a)) hne hitem' h hc with
    ⟨rfl, p, hstop, hk⟩ | ⟨-, hitems⟩
  · obtain ⟨hsame, hsuf⟩ := hclose.solid_stop hc hstop (hk.trans hb)
    refine ⟨hsuf, ?_, fun r => ⟨hclose.tidy _, trivial⟩, fun r => ?_⟩
    · rw [hsame]
      simp [solid_cons hclose.kind]
    · simp [hclose.lexes r]
  · rw [hb] at hitems
    exact (Spells.items hclose hitems (hc.of_suffix (unblank_suffix _))).of_unblank

end Lists

end ListQuery.Filter
