/-
The parser spells the trees it gives: each production does when the productions one level of nesting
down do, so all of them do. A tree that has been read therefore has the pieces of the text it was
read from, and its written form reads back just when no dash of it stands before a digit
(`expression_spells`).
-/
import ListQuery.Proofs.Parse.Spell

namespace ListQuery.Filter

open Piece

namespace Parser

/-- The productions one level down spell what they give, and a comparable starts with a digit just
when it is a member that does. -/
structure Inner.Spell (inner : Inner) : Prop where
  expression : ∀ {s e s'}, inner.expression s = .ok e s' → Cut s.pieces →
    Spells s.pieces s'.pieces (e.written .quoted) (NoGlue e.nodes)
  comparable : ∀ {s c s'}, inner.comparable s = .ok c s' → Cut s.pieces →
    Spells s.pieces s'.pieces (c.written .quoted) (NoGlue c.nodes)
  digit : ∀ {s c s'}, inner.comparable s = .ok c s' → Cut s.pieces →
    ∀ r, startsDigit (chars (c.written .quoted) ++ r) = c.leadsDigit

variable {o : ParserOptions} {inner : Inner} {s s' : ParseState}

theorem composite_spells (hi : inner.Spell) {c : Composite} (h : composite inner s = .ok c s')
    (hc : Cut s.pieces) :
    Spells s.pieces s'.pieces (c.written .quoted) (NoGlue c.nodes) := by
  obtain ⟨p, p', ps, s₁, s₂, hps, hk, hs₁, he, hstop, hk'⟩ := composite_ok h
  rw [hps] at hc ⊢
  have hp : p = ⟨.leftParen, "("⟩ := hc.head.eq_of_kind hk rfl
  subst hp
  have hc₁ : Cut s₁.pieces := by
    rw [hs₁]
    exact (hc.of_suffix (List.suffix_cons _ _)).of_suffix (unblank_suffix _)
  have hclosed := (hi.expression he hc₁).closed delimiter_rightParen hc₁ hstop hk'
  rw [hs₁] at hclosed
  obtain ⟨span, e⟩ := c
  exact (hclosed.of_unblank.spells delimiter_leftParen [] hc).congr
    (noGlue_cons_of_ne (by simp)).symm

theorem arg_spells (hi : inner.Spell) {a : Arg} (h : arg inner s = .ok a s')
    (hc : Cut s.pieces) :
    Spells s.pieces s'.pieces (a.written .quoted) (NoGlue a.nodes) := by
  obtain ⟨s₁, hs₁, h⟩ := arg_ok h
  rw [← hs₁] at hc ⊢
  rcases h with ⟨-, c, hrun, rfl⟩ | ⟨-, c, hrun, rfl⟩
  · exact composite_spells hi hrun hc
  · exact hi.comparable hrun hc

/-- A dotted name takes exactly its own pieces. -/
theorem path_ok {value : Leaf} {fields : List Leaf} (h : many dottedLeaf s = .ok fields s')
    (hc : Cut (ofLeaf .quoted value :: s.pieces)) :
    ofLeaf .quoted value :: s.pieces = ofPath .quoted (value :: fields) ++ s'.pieces := by
  have step : ∀ {s l s'}, dottedLeaf s = .ok (some l) s' → Cut s.pieces →
      s.pieces = dot :: ofLeaf .quoted l :: s'.pieces ∧ s'.pieces <:+ s.pieces := by
    intro s l s' h hc
    obtain ⟨p, hk, hp⟩ := dottedLeaf_some h
    rw [hp] at hc ⊢
    rw [show p = dot from hc.head.eq_of_kind hk rfl]
    exact ⟨rfl, (List.suffix_cons _ _).trans (List.suffix_cons _ _)⟩
  have hsteps := many_ok (T := fun ps l ps' => ps = dot :: ofLeaf .quoted l :: ps')
    dottedLeaf_none step h (hc.of_suffix (List.suffix_cons _ _))
  have run : ∀ {ps ps' : List Piece} {ls : List Leaf},
      Steps (fun ps l ps' => ps = dot :: ofLeaf .quoted l :: ps') ps ls ps' →
      ps = (ls.flatMap fun l => [dot, ofLeaf .quoted l]) ++ ps' := by
    intro ps ps' ls h
    induction h with
    | nil => rfl
    | cons head tail ih => rw [head, ih]; simp
  rw [ofPath_cons, List.cons_append, ← run hsteps]

theorem member_spells {m : Member} {ps : List Piece} (hc : Cut (ofPath .quoted m.path ++ ps)) :
    Spells (ofPath .quoted m.path ++ ps) ps (ofPath .quoted m.path)
      (NoGlue [.comparable (.member m)]) := by
  refine ⟨?_, by rw [solid_append], tidy_ofPath _, fun r hr => ?_⟩
  · rw [Member.path, ofPath_cons]
    exact ⟨_, _, _, rfl, rfl, ofLeaf_kind_ne _ _, List.suffix_append _ _⟩
  · have := chain_ofPath hr ((chain_append _ _ _).1 hc).1
    simp only [this, true_iff]
    exact (noGlue_cons_of_ne (by simp)).2 noGlue_nil

theorem structEntry_spells (hi : inner.Spell) {e : StructEntry}
    (h : structEntry o inner s = .ok e s') (hc : Cut s.pieces) :
    Spells s.pieces s'.pieces (e.written .quoted) (NoGlue e.nodes) := by
  obtain ⟨p, ps, ps', s₁, hps, hstop, hk, hs₁, hv⟩ := structEntry_ok h
  rw [hps] at hc ⊢
  have hc' : Cut ps := hc.of_suffix (List.suffix_cons _ _)
  obtain ⟨hsame, hsuf⟩ := delimiter_colon.solid_stop hc' hstop hk
  have hsuf₁ : s₁.pieces <:+ ps := by
    rw [hs₁]
    exact (unblank_suffix _).trans hsuf
  have hvalue := hi.comparable hv (hc'.of_suffix hsuf₁)
  obtain ⟨name, value⟩ := e
  refine ⟨⟨_, _, _, rfl, rfl, ofLeaf_kind_ne _ _, hvalue.suffix.trans hsuf₁⟩, ?_,
    fun r => ?_, fun r hr => ?_⟩
  · rw [solid_cons (ofLeaf_kind_ne _ _), hsame, ← solid_unblank ps', ← hs₁, hvalue.same]
    simp only [StructEntry.written, solid_cons (ofLeaf_kind_ne _ _),
      solid_cons delimiter_colon.kind, List.cons_append]
  · exact ⟨⟨Kind.isIllegal_of_isLeaf name.leaf, fun hk => absurd hk (ofLeaf_kind_ne _ _)⟩,
      delimiter_colon.tidy _, hvalue.tidy r⟩
  · have hname : (ofLeaf .quoted name).Lexes
        (chars (colon :: value.written .quoted) ++ r) := by
      refine hc.head.of_stops name.leaf ?_
      rw [chars_cons, List.append_assoc]
      exact delimiter_colon.stops _
    simp only [StructEntry.written, chain_cons, hname, lexes_colon, true_and, hvalue.reads r hr]
    rfl

/-- The name of a call or a struct is of bare words, so it starts with no digit. -/
theorem startsDigit_name {value : Leaf} {fields : List Leaf}
    (hid : ∀ l ∈ value :: fields, l.isIdentifier = true) {r₀ : List Char}
    (hl : (ofLeaf .quoted value).Lexes r₀) (r : List Char) :
    startsDigit (chars (ofPath .quoted (value :: fields)) ++ r) = false := by
  rw [ofPath_cons, chars_cons, List.append_assoc]
  refine hl.not_startsDigit ?_ _
  have := hid value (by simp)
  show value.kind.isNumeral = false
  simp only [Leaf.isIdentifier] at this
  cases hk : value.kind <;> simp_all [Kind.isNumeral, Kind.isKeyword]

theorem call_spells (hi : inner.Spell) {name : List Leaf} {start : Position} {c : Call}
    (h : call o inner name start s = .ok c s') (hc : Cut (ofPath .quoted name ++ s.pieces)) :
    Spells (ofPath .quoted name ++ s.pieces) s'.pieces (c.written .quoted)
      (NoGlue (.comparable (.call c) :: c.nodes)) := by
  obtain ⟨p, s₁, hps, hk, rfl, hargs⟩ := call_ok h
  rw [hps] at hc ⊢
  have hcp : Cut (p :: s₁.pieces) := hc.of_suffix (List.suffix_append _ _)
  have hp : p = ⟨.leftParen, "("⟩ := hcp.head.eq_of_kind hk rfl
  subst hp
  have hclosed := delimited_closed delimiter_rightParen rfl (arg_spells hi) hargs
    (hcp.of_suffix (List.suffix_cons _ _))
  obtain ⟨span, name, args⟩ := c
  have hspells := (hclosed.spells delimiter_leftParen name hc).congr
    (D := NoGlue (.comparable (.call ⟨span, name, args⟩) :: Call.nodes ⟨span, name, args⟩)) (by
      rw [noGlue_cons_of_ne (by simp), Call.nodes, argNodes_eq, noGlue_flatMap])
  simpa [Call.written, writtenArgs_eq] using hspells

theorem arrayLiteral_spells (hi : inner.Spell) {a : ArrayLiteral}
    (h : arrayLiteral o inner s = .ok a s') (hc : Cut s.pieces) :
    Spells s.pieces s'.pieces (a.written .quoted)
      (NoGlue (.comparable (.array a) :: a.nodes)) := by
  obtain ⟨p, s₁, hps, hk, helems⟩ := arrayLiteral_ok h
  rw [hps] at hc ⊢
  have hp : p = ⟨.leftBracket, "["⟩ := hc.head.eq_of_kind hk rfl
  subst hp
  have hclosed := delimited_closed delimiter_rightBracket rfl hi.comparable helems
    (hc.of_suffix (List.suffix_cons _ _))
  obtain ⟨span, elements⟩ := a
  have hspells := (hclosed.spells delimiter_leftBracket [] hc).congr
    (D := NoGlue (.comparable (.array ⟨span, elements⟩) :: ArrayLiteral.nodes ⟨span, elements⟩)) (by
      rw [noGlue_cons_of_ne (by simp), ArrayLiteral.nodes, elementNodes_eq, noGlue_flatMap])
  simpa [ArrayLiteral.written, writtenElements_eq] using hspells

theorem structLiteral_spells (hi : inner.Spell) {name : List Leaf} {start : Position}
    {x : StructLiteral} (h : structLiteral o inner name start s = .ok x s')
    (hc : Cut (ofPath .quoted name ++ s.pieces)) :
    Spells (ofPath .quoted name ++ s.pieces) s'.pieces (x.written .quoted)
      (NoGlue (.comparable (.struct x) :: x.nodes)) := by
  obtain ⟨p, s₁, hps, hk, rfl, hentries⟩ := structLiteral_ok h
  rw [hps] at hc ⊢
  have hcp : Cut (p :: s₁.pieces) := hc.of_suffix (List.suffix_append _ _)
  have hp : p = ⟨.leftBrace, "\x7b"⟩ := hcp.head.eq_of_kind hk rfl
  subst hp
  have hclosed := delimited_closed delimiter_rightBrace rfl (structEntry_spells hi) hentries
    (hcp.of_suffix (List.suffix_cons _ _))
  obtain ⟨span, name, entries⟩ := x
  have hspells := (hclosed.spells delimiter_leftBrace name hc).congr
    (D := NoGlue (.comparable (.struct ⟨span, name, entries⟩) ::
      StructLiteral.nodes ⟨span, name, entries⟩)) (by
      rw [noGlue_cons_of_ne (by simp), StructLiteral.nodes, entryNodes_eq, noGlue_flatMap])
  simpa [StructLiteral.written, writtenEntries_eq] using hspells

theorem nameRun_spells (hi : inner.Spell) {c : Comparable} (h : nameRun o inner s = .ok c s')
    (hc : Cut s.pieces) :
    Spells s.pieces s'.pieces (c.written .quoted) (NoGlue c.nodes) ∧
      ∀ r, startsDigit (chars (c.written .quoted) ++ r) = c.leadsDigit := by
  obtain ⟨value, fields, s₁, s₂, s₃, hps, hfields, hs₃, h⟩ := nameRun_ok h
  have hl : (ofLeaf .quoted value).Lexes (chars s₁.pieces) := by
    rw [hps] at hc
    exact hc.head
  have hpath : s.pieces = ofPath .quoted (value :: fields) ++ s₂.pieces := by
    rw [hps] at hc ⊢
    exact path_ok hfields hc
  rw [hpath] at hc ⊢
  rcases h with ⟨-, hid, start, x, hx, rfl⟩ | ⟨-, -, hid, start, x, hx, rfl⟩ | ⟨hs', span, rfl⟩
  · rw [← hs₃] at hc ⊢
    refine ⟨call_spells hi hx hc, fun r => ?_⟩
    obtain ⟨_, _, -, -, hname, -⟩ := call_ok hx
    obtain ⟨xspan, xname, args⟩ := x
    subst hname
    simp only [Comparable.written, Call.written, Comparable.leadsDigit, chars_append,
      List.append_assoc]
    exact startsDigit_name hid hl _
  · rw [← hs₃] at hc ⊢
    refine ⟨structLiteral_spells hi hx hc, fun r => ?_⟩
    obtain ⟨_, _, -, -, hname, -⟩ := structLiteral_ok hx
    obtain ⟨xspan, xname, entries⟩ := x
    subst hname
    simp only [Comparable.written, StructLiteral.written, Comparable.leadsDigit, chars_append,
      List.append_assoc]
    exact startsDigit_name hid hl _
  · rw [hs']
    refine ⟨member_spells (m := ⟨span, value, fields⟩) hc, fun r => ?_⟩
    obtain ⟨d, ds, ht, -⟩ := hl
    have ht' : value.raw.toList = d :: ds := ht
    rw [Comparable.written, Member.path, ofPath_cons, chars_cons, ht]
    simp only [Comparable.leadsDigit, ht', startsDigit, List.cons_append, List.head?_cons]

theorem comparableBody_spells (hi : inner.Spell) {c : Comparable}
    (h : comparableBody o inner s = .ok c s') (hc : Cut s.pieces) :
    Spells s.pieces s'.pieces (c.written .quoted) (NoGlue c.nodes) ∧
      ∀ r, startsDigit (chars (c.written .quoted) ++ r) = c.leadsDigit := by
  obtain ⟨s₁, hs₁, h⟩ := comparableBody_ok h
  rw [← hs₁] at hc ⊢
  rcases h with ⟨-, -, x, hx, rfl⟩ | ⟨-, -, start, x, hx, rfl⟩ | ⟨-, hx⟩
  · refine ⟨arrayLiteral_spells hi hx hc, fun r => ?_⟩
    obtain ⟨xspan, elements⟩ := x
    rfl
  · refine ⟨structLiteral_spells hi hx hc, fun r => ?_⟩
    obtain ⟨_, _, -, -, hname, -⟩ := structLiteral_ok hx
    obtain ⟨xspan, xname, entries⟩ := x
    subst hname
    rfl
  · exact nameRun_spells hi hx hc

/-! ## Terms -/

theorem solid_ofComparator (c : Comparator) : solid (ofComparator c) = [⟨c.kind, c.text⟩] := by
  cases c <;> rfl

theorem legal_ofComparator (c : Comparator) : Legal (ofComparator c) := by
  cases c <;> simp [ofComparator, blank, colon, Comparator.kind, Kind.isIllegal]

theorem stops_ofComparator (c : Comparator) (r : List Char) :
    Stops (chars (ofComparator c) ++ r) := by
  cases c
  case has => exact stops_cons (c := ':') (by simp) r
  all_goals exact stops_cons (c := ' ') (by simp) _

theorem chain_ofComparator (c : Comparator) {r : List Char} (h : Dark r) :
    Chain Lexes (ofComparator c) r := by
  by_cases hc : c = .has
  · subst hc
    exact ⟨lexes_colon _, trivial⟩
  · have hblank : ofComparator c = [blank, ⟨c.kind, c.text⟩, blank] := by
      cases c <;> first | rfl | exact absurd rfl hc
    rw [hblank]
    refine ⟨lexes_blank ?_, lexes_comparator c r, lexes_blank h, trivial⟩
    rw [chars_cons, List.append_assoc]
    exact (lexes_comparator c r).dark (by cases c <;> simp [Comparator.kind]) _

theorem comparatorAt_kind {ps : List Piece} {c : Comparator} (h : comparatorAt o ps = some c) :
    headKind ps = c.kind := by
  unfold comparatorAt at h
  split at h
  · rename_i hk
    split at h
    · cases h
      exact hk
    · cases h
  · unfold Comparator.ofKind? at h
    split at h <;> cases h <;> assumption

theorem comparator_spelling (c : Comparator) : c.kind.spelling? = some c.text := by
  cases c <;> rfl

theorem restriction_spells (hi : inner.Spell) {r : Restriction}
    (h : restriction o inner s = .ok r s') (hc : Cut s.pieces) :
    Spells s.pieces s'.pieces (r.written .quoted) (NoGlue r.nodes) ∧
      ∀ x, startsDigit (chars (r.written .quoted) ++ x) = r.comparable.leadsDigit := by
  obtain ⟨s₁, s₂, hs₁, hcomp, h⟩ := restriction_ok h
  rw [← hs₁] at hc ⊢
  have hleft := hi.comparable hcomp hc
  have hdigit := hi.digit hcomp hc
  obtain ⟨span, comparable, comparison⟩ := r
  rcases h with ⟨-, hs', rfl⟩ | ⟨c, s₃, hcmp, hs₃, harg, rfl⟩
  · rw [hs']
    exact ⟨hleft.congr (noGlue_cons_of_ne (by simp)).symm, hdigit⟩
  · have hc₂ := hc.of_suffix hleft.suffix
    obtain ⟨hsuf₃, hsame₂⟩ := hc₂.solid_word (comparatorAt_kind hcmp) (comparator_spelling _)
    rw [← hs₃] at hsuf₃ hsame₂
    have hright := arg_spells hi harg (hc₂.of_suffix hsuf₃)
    obtain ⟨comparator, pos, a⟩ := c
    refine ⟨Spells.congr (hleft.append (D := NoGlue a.nodes) (hright.suffix.trans hsuf₃) ?_
      ?_ fun x hx => ⟨?_, ?_⟩) ?_, fun x => ?_⟩
    · rw [hsame₂, hright.same]
      simp only [Comparison.written, solid_append, solid_ofComparator, List.cons_append,
        List.nil_append]
    · intro x
      rw [Comparison.written, chain_append]
      exact ⟨(legal_ofComparator comparator).tidy
        (chain_ofComparator comparator (hright.dark (hc₂.of_suffix hsuf₃) x)), hright.tidy x⟩
    · rw [Comparison.written, chars_append, List.append_assoc]
      exact stops_ofComparator comparator _
    · have hdark := hright.dark (hc₂.of_suffix hsuf₃) x
      rw [Comparison.written, chain_append, hright.reads x hx]
      simp only [chain_ofComparator comparator hdark, true_and]
    · rw [Restriction.nodes, List.cons_append, noGlue_cons_of_ne (by simp), noGlue_append]
      rfl
    · rw [Restriction.written, chars_append, List.append_assoc]
      exact hdigit _

theorem simple_spells (hi : inner.Spell) {x : Simple} (h : simple o inner s = .ok x s')
    (hc : Cut s.pieces) :
    Spells s.pieces s'.pieces (x.written .quoted) (NoGlue x.nodes) ∧
      ∀ r, startsDigit (chars (x.written .quoted) ++ r) = x.leadsDigit := by
  obtain ⟨s₁, hs₁, h⟩ := simple_ok h
  rw [← hs₁] at hc ⊢
  rcases h with ⟨-, c, hrun, rfl⟩ | ⟨-, r, hrun, rfl⟩
  · refine ⟨composite_spells hi hrun hc, fun r => ?_⟩
    obtain ⟨span, e⟩ := c
    rfl
  · exact restriction_spells hi hrun hc

theorem isOperator_kind {word : Kind} {ps : List Piece} (h : isOperator word ps = true) :
    headKind ps = word := by
  simp only [isOperator, Bool.and_eq_true, beq_iff_eq] at h
  exact h.1

theorem term_spells (hi : inner.Spell) {t : Term} (h : term o inner s = .ok t s')
    (hc : Cut s.pieces) :
    Spells s.pieces s'.pieces (t.written .quoted) (NoGlue t.nodes) := by
  obtain ⟨span, s₁, s₂, hs₁, hu, hx, ht⟩ := term_ok h
  rw [← hs₁] at hc ⊢
  obtain ⟨tspan, unary, x, orPos⟩ := t
  rw [Term.nodes]
  rcases unary_ok hu with ⟨rfl, hop, hs₂⟩ | ⟨rfl, hk, hs₂⟩ | ⟨rfl, -, -, hs₂⟩
  · obtain ⟨p, ps, hps, hk⟩ := exists_cons_of_headKind (isOperator_kind hop) (by simp)
    rw [hps] at hs₂ hc ⊢
    have hc₂ : Cut s₂.pieces := by
      rw [hs₂]
      exact hc.of_suffix ((unblank_suffix _).trans (List.suffix_cons _ _))
    have hp : p = ⟨.notWord, "NOT"⟩ := hc.head.eq_of_kind hk rfl
    subst hp
    have hsimple := (simple_spells hi hx hc₂).1
    have hdark := hsimple.dark hc₂
    rw [hs₂] at hsimple
    refine (hsimple.cons (D := True) (by simp) [blank] rfl (fun r => ?_)
      fun r _ => ?_).congr ?_
    · exact ⟨⟨rfl, fun _ => lexes_notWord _⟩, ⟨rfl, fun _ => lexes_blank (hdark r)⟩, trivial⟩
    · simp only [chain_cons, chain_nil, and_true, iff_true]
      exact ⟨lexes_notWord _, lexes_blank (hdark r)⟩
    · rw [noGlue_cons_term, true_and]
      exact (and_iff_right rfl).symm
  · obtain ⟨p, ps, hps, hk⟩ := exists_cons_of_headKind hk (by simp)
    rw [hps] at hs₂ hc ⊢
    have hc₂ : Cut s₂.pieces := by
      rw [hs₂]
      exact hc.of_suffix ((unblank_suffix _).trans (List.suffix_cons _ _))
    have hp : p = ⟨.minus, "-"⟩ := hc.head.eq_of_kind hk rfl
    subst hp
    obtain ⟨hsimple, hdigit⟩ := simple_spells hi hx hc₂
    rw [hs₂] at hsimple
    -- the dash reads back just when the text behind it starts with no digit
    refine (hsimple.cons (D := x.leadsDigit = false) (by simp) [] rfl
      (fun r => ⟨⟨rfl, by simp⟩, trivial⟩) fun r _ => ?_).congr ?_
    · simp only [chain_cons, chain_nil, and_true, chars_nil, List.nil_append, lexes_minus_iff]
      rw [hdigit r]
    · rw [noGlue_cons_term]
      simp [Term.gluesDash]
  · rw [← hs₂] at hc ⊢
    refine (simple_spells hi hx hc).1.congr ?_
    rw [noGlue_cons_term]
    exact (and_iff_right rfl).symm

/-! ## Expressions -/

/-- A joined run starts with its operator word, which is followed by a run that spells. -/
theorem joined_of_operator {α : Type} {word : Kind} {x : String} (hx : word.spelling? = some x)
    {ps ps₁ ps' : List Piece} {w : α → List Piece} {C : α → Prop} {a : α}
    (hop : isOperator word (unblank ps) = true) (hps₁ : ps₁ = unblank (unblank ps).tail)
    (hc : Cut ps) (h : Cut ps₁ → Spells ps₁ ps' (w a) (C a)) :
    Joined [blank, ⟨word, x⟩, blank] w C ps a ps' := by
  obtain ⟨hsuf, hsame⟩ := hc.solid_word (isOperator_kind hop) hx
  rw [← hps₁] at hsuf hsame
  have hw : word ≠ .whitespace := by
    rintro rfl
    cases hx
  refine ⟨ps₁, hsuf, ?_, h (hc.of_suffix hsuf)⟩
  rw [hsame, solid_blank, solid_cons hw, solid_blank, solid_nil, List.cons_append,
    List.nil_append]

theorem orTerm_joined (hi : inner.Spell) {x : Position × Term}
    (h : orTerm o inner s = .ok (some x) s') (hc : Cut s.pieces) :
    Joined [blank, ⟨.orWord, "OR"⟩, blank] (fun x => x.2.written .quoted)
      (fun x => NoGlue x.2.nodes) s.pieces x s'.pieces := by
  obtain ⟨s₁, hop, hs₁, ht⟩ := orTerm_some h
  exact joined_of_operator rfl hop hs₁ hc fun hc₁ => term_spells hi ht hc₁

/-- Linking terms changes only where their `OR` stands. -/
theorem map_linkTerms {β : Type} {f : Term → β}
    (hf : ∀ t pos, f { t with orPos := pos } = f t) : ∀ (first : Term)
    (others : List (Position × Term)),
    (linkTerms first others).map f = f first :: others.map fun x => f x.2
  | _, [] => rfl
  | first, (pos, t) :: others => by
    rw [linkTerms, List.map_cons, map_linkTerms hf t others, List.map_cons, hf]

theorem noGlue_linkTerms : ∀ (first : Term) (others : List (Position × Term)),
    NoGlue (termNodes (linkTerms first others)) ↔
      NoGlue first.nodes ∧ ∀ x ∈ others, NoGlue x.2.nodes
  | first, [] => by simp [linkTerms, termNodes]
  | ⟨span, unary, simple, orPos⟩, (pos, t) :: others => by
    rw [linkTerms, termNodes, noGlue_append, noGlue_linkTerms t others]
    simp only [Term.nodes, noGlue_cons_term, Term.gluesDash, List.mem_cons, forall_eq_or_imp]

theorem factor_spells (hi : inner.Spell) {f : Factor} (h : factor o inner s = .ok f s')
    (hc : Cut s.pieces) :
    Spells s.pieces s'.pieces (f.written .quoted) (NoGlue f.nodes) := by
  obtain ⟨first, others, s₁, s₂, hs₁, hfirst, hothers, hterms⟩ := factor_ok h
  rw [← hs₁] at hc ⊢
  have hspell := term_spells hi hfirst hc
  have hsteps := many_ok orTerm_none
    (fun h hc => ⟨orTerm_joined hi h hc, (orTerm_joined hi h hc).suffix⟩) hothers
    (hc.of_suffix hspell.suffix)
  have hrun := hspell.run separates_orWord hsteps hc
  obtain ⟨span, terms⟩ := f
  subst hterms
  rw [Factor.written, writtenTerms_eq, map_linkTerms (by rintro ⟨⟩ _; rfl), intercalate_eq]
  refine hrun.congr ?_
  rw [Factor.nodes, noGlue_cons_of_ne (by simp), noGlue_linkTerms]

theorem nextFactor_joined (hi : inner.Spell) {f : Factor}
    (h : nextFactor o inner s = .ok (some f) s') (hc : Cut s.pieces) :
    Joined [blank] (Factor.written .quoted) (fun f => NoGlue f.nodes) s.pieces f s'.pieces := by
  obtain ⟨s₁, -, -, hs₁, hf⟩ := nextFactor_some h
  have hsuf : s₁.pieces <:+ s.pieces := hs₁ ▸ unblank_suffix _
  refine ⟨s₁.pieces, hsuf, ?_, factor_spells hi hf (hc.of_suffix hsuf)⟩
  rw [hs₁, solid_unblank]
  rfl

theorem sequence_spells (hi : inner.Spell) {x : Sequence} (h : sequence o inner s = .ok x s')
    (hc : Cut s.pieces) :
    Spells s.pieces s'.pieces (x.written .quoted) (NoGlue x.nodes) := by
  obtain ⟨first, others, s₁, s₂, hs₁, hfirst, hothers, hfactors⟩ := sequence_ok h
  rw [← hs₁] at hc ⊢
  have hspell := factor_spells hi hfirst hc
  have hsteps := many_ok nextFactor_none
    (fun h hc => ⟨nextFactor_joined hi h hc, (nextFactor_joined hi h hc).suffix⟩) hothers
    (hc.of_suffix hspell.suffix)
  have hrun := hspell.run separates_blank hsteps hc
  obtain ⟨span, factors⟩ := x
  subst hfactors
  rw [Sequence.written, writtenFactors_eq, List.map_cons, intercalate_eq]
  refine hrun.congr ?_
  rw [Sequence.nodes, noGlue_cons_of_ne (by simp), factorNodes_eq, noGlue_flatMap]
  simp only [List.mem_cons, forall_eq_or_imp]

theorem andSequence_joined (hi : inner.Spell) {x : Sequence}
    (h : andSequence o inner s = .ok (some x) s') (hc : Cut s.pieces) :
    Joined [blank, ⟨.andWord, "AND"⟩, blank] (Sequence.written .quoted)
      (fun x => NoGlue x.nodes) s.pieces x s'.pieces := by
  obtain ⟨s₁, hop, hs₁, hx⟩ := andSequence_some h
  exact joined_of_operator rfl hop hs₁ hc fun hc₁ => sequence_spells hi hx hc₁

theorem expressionBody_spells (hi : inner.Spell) {e : Expression}
    (h : expressionBody o inner s = .ok e s') (hc : Cut s.pieces) :
    Spells s.pieces s'.pieces (e.written .quoted) (NoGlue e.nodes) := by
  obtain ⟨first, others, s₁, s₂, hs₁, hfirst, hothers, hsequences⟩ := expressionBody_ok h
  rw [← hs₁] at hc ⊢
  have hspell := sequence_spells hi hfirst hc
  have hsteps := many_ok andSequence_none
    (fun h hc => ⟨andSequence_joined hi h hc, (andSequence_joined hi h hc).suffix⟩) hothers
    (hc.of_suffix hspell.suffix)
  have hrun := hspell.run separates_andWord hsteps hc
  obtain ⟨span, sequences⟩ := e
  subst hsequences
  rw [Expression.written, writtenSequences_eq, List.map_cons, intercalate_eq]
  refine hrun.congr ?_
  rw [Expression.nodes, noGlue_cons_of_ne (by simp), sequenceNodes_eq, noGlue_flatMap]
  simp only [List.mem_cons, forall_eq_or_imp]

/-- The productions at a level of nesting. -/
def innerAt (o : ParserOptions) (levels : Nat) : Inner :=
  ⟨expression o levels, comparable o levels⟩

theorem innerAt_spell (o : ParserOptions) : ∀ levels, (innerAt o levels).Spell
  | 0 => ⟨fun h => absurd h tooDeep_ok, fun h => absurd h tooDeep_ok, fun h => absurd h tooDeep_ok⟩
  | levels + 1 =>
    have hi := innerAt_spell o levels
    ⟨fun h hc => expressionBody_spells hi h hc, fun h hc => (comparableBody_spells hi h hc).1,
      fun h hc => (comparableBody_spells hi h hc).2⟩

/-- A tree that has been read has the pieces it was read from, and what it is written as reads back
just when no dash of it stands before a digit. -/
theorem expression_spells {levels : Nat} {e : Expression} (h : expression o levels s = .ok e s')
    (hc : Cut s.pieces) :
    Spells s.pieces s'.pieces (e.written .quoted) (NoGlue e.nodes) :=
  (innerAt_spell o levels).expression h hc

end Parser

end ListQuery.Filter
