/-
Reading a whole written filter again: terms, factors, sequences and expressions, and from them the
round trip. A tree that was read is read again from its text just when no dash of it stands before a
digit, and then strict options do as well.
-/
import ListQuery.Proofs.Parse.Repeat

namespace ListQuery.Filter

open Piece

namespace Parser

variable {o o' : ParserOptions} {inner inner' : Inner} {s s' : ParseState}

/-- A comparator and the blanks around it, as they are looked at. -/
theorem unblank_ofComparator (c : Comparator) {ps : List Piece} (h : headKind ps ≠ .whitespace) :
    ∃ qs, unblank (ofComparator c ++ ps) = ⟨c.kind, c.text⟩ :: qs ∧ unblank qs = ps := by
  by_cases hc : c = .has
  · subst hc
    exact ⟨ps, rfl, unblank_eq_self h⟩
  · refine ⟨blank :: ps, ?_, unblank_blank ps⟩
    cases c <;> first | rfl | exact absurd rfl hc

theorem follows_ofComparator (c : Comparator) (ps : List Piece) : Follows (ofComparator c ++ ps) := by
  cases c <;> simp [Follows, ofComparator, blank, colon]

theorem restriction_repeats (ho : o.SameGrammar o') (hi : inner.Repeat inner') {x : Restriction}
    (h : restriction o inner s = .ok x s') (hc : Cut s.pieces) :
    Repeats (restriction o' inner') (x.written .quoted) Ends s'.pieces
      (fun x' => x'.unplaced = x.unplaced) := by
  intro r hr hf hcut
  obtain ⟨s₁, s₂, hs₁, hcomp, h⟩ := restriction_ok h
  rw [← hs₁] at hc
  have hc₂ := hc.of_suffix (hi.spell.comparable hcomp hc).suffix
  obtain ⟨span, comparable, comparison⟩ := x
  unfold restriction
  refine gets_peek.bind fun _ _ => ?_
  rcases h with ⟨hnone, hs', rfl⟩ | ⟨c, s₃, hcmp, hs₃, harg, rfl⟩
  · rw [hs'] at hr
    have hcr : Cut r := hcut.of_suffix (List.suffix_append _ _)
    refine (hi.comparable hcomp hc r hr hf.follows hcut).bind fun c' hc' => ?_
    refine gets_get.bind fun saved hsaved => ?_
    refine gets_skipBlank_any.bind fun _ _ => ?_
    refine gets_peek.bind fun t ht => ?_
    refine (gets_comparator? ht).bind fun y hy => ?_
    rw [comparatorAt_congr hcr hc₂ hr ho, hnone] at hy
    subst hy
    refine (gets_restore hsaved).bind fun _ _ => ?_
    refine (gets_spanFrom _).bind fun _ _ => .pure ?_
    simp only [Restriction.unplaced, hc']
  · obtain ⟨hsuf₃, hsame₂⟩ := hc₂.solid_word (comparatorAt_kind hcmp) (comparator_spelling _)
    rw [← hs₃] at hsuf₃ hsame₂
    have hc₃ := hc₂.of_suffix hsuf₃
    have hright := arg_spells hi.spell harg hc₃
    obtain ⟨comparator, pos, a⟩ := c
    have hw : Restriction.written .quoted ⟨span, comparable, some ⟨comparator, pos, a⟩⟩ ++ r =
        comparable.written .quoted ++ (ofComparator comparator ++ (a.written .quoted ++ r)) := by
      simp [Restriction.written, Comparison.written]
    rw [hw] at hcut ⊢
    have hcut₁ : Cut (ofComparator comparator ++ (a.written .quoted ++ r)) :=
      hcut.of_suffix (List.suffix_append _ _)
    have hcut₂ : Cut (a.written .quoted ++ r) := hcut₁.of_suffix (List.suffix_append _ _)
    have hsame : solid (ofComparator comparator ++ (a.written .quoted ++ r)) = solid s₂.pieces := by
      rw [hsame₂, hright.same, solid_append, solid_append, solid_ofComparator, hr]
      rfl
    have hne : headKind (a.written .quoted ++ r) ≠ .whitespace := by
      rw [hright.headKind_append]
      exact hright.headKind_ne
    obtain ⟨qs, hqs, hqs'⟩ := unblank_ofComparator comparator hne
    refine (hi.comparable hcomp hc _ hsame (follows_ofComparator _ _) hcut).bind fun c' hc' => ?_
    refine gets_get.bind fun _ _ => ?_
    refine gets_skipBlank_any.bind fun _ _ => ?_
    refine gets_peek.bind fun t ht => ?_
    refine (gets_comparator? ht).bind fun y hy => ?_
    rw [comparatorAt_congr hcut₁ hc₂ hsame ho, hcmp] at hy
    subst hy
    rw [hqs]
    refine (gets_next _).bind fun _ _ => ?_
    refine gets_skipBlank_any.bind fun _ _ => ?_
    rw [hqs']
    refine (arg_repeats hi harg hc₃ r hr hf.follows hcut₂).bind fun a' ha' => ?_
    refine (gets_spanFrom _).bind fun _ _ => .pure ?_
    simp only [Restriction.unplaced, Comparison.unplaced, hc', ha']

theorem simple_repeats (ho : o.SameGrammar o') (hi : inner.Repeat inner') {x : Simple}
    (h : simple o inner s = .ok x s') (hc : Cut s.pieces) :
    Repeats (simple o' inner') (x.written .quoted) Ends s'.pieces
      (fun x' => x'.unplaced = x.unplaced) := by
  intro r hr hf hcut
  have hk := (simple_spells hi.spell h hc).1.headKind_append r
  obtain ⟨s₁, hs₁, h⟩ := simple_ok h
  rw [← hs₁] at hc
  unfold simple
  refine gets_peekKind.bind fun k hk' => ?_
  rw [hk] at hk'
  rcases h with ⟨hp, c, hrun, rfl⟩ | ⟨hp, y, hrun, rfl⟩
  · rw [if_pos (hk'.trans hp)]
    refine (composite_repeats hi hrun hc r hr trivial hcut).bind fun c' hc' => .pure ?_
    simp only [Simple.unplaced, hc']
  · rw [if_neg (by rw [hk']; exact hp)]
    refine (restriction_repeats ho hi hrun hc r hr hf hcut).bind fun y' hy' => .pure ?_
    simp only [Simple.unplaced, hy']

theorem term_repeats (ho : o.SameGrammar o') (hi : inner.Repeat inner') {t : Term}
    (h : term o inner s = .ok t s') (hc : Cut s.pieces) :
    Repeats (term o' inner') (t.written .quoted) Ends s'.pieces
      (fun t' => t'.unplaced = t.unplaced) := by
  intro r hr hf hcut
  have hspell := term_spells hi.spell h hc
  have hsame : solid (t.written .quoted ++ r) = solid s.pieces := by
    rw [solid_append, hr, hspell.same]
  have hnot : isOperator .notWord (t.written .quoted ++ r) = isOperator .notWord s.pieces := by
    have := isOperator_congr hcut hc hsame .notWord
    rwa [hspell.unblank_append, unblank_eq_self hspell.headKind_ne] at this
  have hhead := hspell.headKind_append r
  obtain ⟨span, s₁, s₂, hs₁, hu, hx, ht⟩ := term_ok h
  rw [← hs₁] at hc hnot hhead
  obtain ⟨tspan, unary, x, orPos⟩ := t
  obtain rfl : orPos = none := congrArg Term.orPos ht
  -- behind the operator both runs read the operand
  have hrest : ∀ (t : Token) (u : Option UnaryOp), u = unary → Cut s₂.pieces →
      Cut (x.written .quoted ++ r) → Gets (simple o' inner' >>= fun x' =>
        spanFrom t.pos >>= fun span => pure ⟨span, u, x', none⟩) (x.written .quoted ++ r)
        (fun t' : Term => t'.unplaced = Term.unplaced ⟨tspan, unary, x, none⟩) r := by
    rintro t u rfl hc₂ hcut₂
    refine (simple_repeats ho hi hx hc₂ r hr hf hcut₂).bind fun x' hx' => ?_
    refine (gets_spanFrom _).bind fun _ _ => .pure ?_
    simp only [Term.unplaced, hx']
  have hcut₂ : Cut (x.written .quoted ++ r) := by
    refine hcut.of_suffix ?_
    rw [Term.written, List.append_assoc]
    exact List.suffix_append _ _
  have hc₂ : Cut s₂.pieces := by
    rcases unary_ok hu with ⟨-, -, hs₂⟩ | ⟨-, -, hs₂⟩ | ⟨-, -, -, hs₂⟩ <;> rw [hs₂]
    · exact hc.of_suffix ((unblank_suffix _).trans (List.tail_suffix _))
    · exact hc.of_suffix ((unblank_suffix _).trans (List.tail_suffix _))
    · exact hc
  unfold term
  refine gets_peek.bind fun t _ => ?_
  rcases unary_ok hu with ⟨rfl, hop, hs₂⟩ | ⟨rfl, hk, hs₂⟩ | ⟨rfl, hop, hk, hs₂⟩
  · refine (gets_unary_not (hnot.trans hop)).bind fun u hu => hrest t u hu hc₂ hcut₂
  · have hsimple := (simple_spells hi.spell hx hc₂).1
    refine (gets_unary_minus rfl ?_).bind fun u hu => hrest t u hu hc₂ hcut₂
    show headKind (x.written .quoted ++ r) ≠ .whitespace
    rw [hsimple.headKind_append]
    exact hsimple.headKind_ne
  · refine (gets_unary_none (hnot.trans hop) (by rw [hhead]; exact hk)).bind
      fun u hu => hrest t u hu hc₂ hcut₂

section Runs

variable {α β : Type} {sep : List Piece} {w : α → List Piece} {C : α → Prop} {u : α → β}
  {F B : List Piece → Prop} {step' : Parser (Option α)}

/-- One more member of a run, which is read again from what it writes; `B` is what was in front of
it. -/
structure StepRepeats (step' : Parser (Option α)) (sep : List Piece) (w : α → List Piece)
    (C : α → Prop) (u : α → β) (F B : List Piece → Prop) (ps : List Piece) (a : α)
    (ps' : List Piece) : Prop where
  joined : Joined sep w C ps a ps'
  begins : B ps
  repeats : Repeats step' (sep ++ w a) F ps' (fun x => ∃ b, x = some b ∧ u b = u a)

/-- The members of a run are read again one behind the other. What follows a member is the next one
or what follows the run; `F` says that it may follow. -/
theorem gives_steps (hsep : Separates sep)
    (hF : ∀ {ps r}, B ps → Cut ps → Cut (blank :: r) → solid (blank :: r) = solid ps →
      F (blank :: r))
    {ps ps' : List Piece} {as : List α} (h : Steps (StepRepeats step' sep w C u F B) ps as ps')
    (hc : Cut ps) (r : List Piece) (hr : solid r = solid ps') (hf : F r)
    (hstop : Gets step' r (· = none) r) (hcut : Cut (writtenTail sep w as ++ r)) :
    F (writtenTail sep w as ++ r) ∧ Gives step' u (writtenTail sep w as ++ r) as r := by
  induction h with
  | nil ps => exact ⟨hf, .nil hstop⟩
  | @cons ps ps₁ ps' a as head tail ih =>
    have hc₁ := hc.of_suffix head.joined.suffix
    have hw : writtenTail sep w (a :: as) ++ r = sep ++ w a ++ (writtenTail sep w as ++ r) := by
      simp [writtenTail]
    rw [hw] at hcut ⊢
    obtain ⟨hf', hgives⟩ := ih hc₁ hr (hcut.of_suffix (List.suffix_append _ _))
    have hsame₁ : solid (writtenTail sep w as ++ r) = solid ps₁ := by
      rw [solid_append, hr, (Joined.steps hsep (tail.mono StepRepeats.joined) hc₁).2.1]
    have hsame : solid (sep ++ w a ++ (writtenTail sep w as ++ r)) = solid ps := by
      obtain ⟨ps₂, -, hsame₂, ha⟩ := head.joined
      rw [solid_append, solid_append, hsame₁, hsame₂, ha.same, List.append_assoc]
    refine ⟨?_, .cons (head.repeats _ hsame₁ hf' hcut) hgives⟩
    obtain ⟨rest, rfl⟩ := hsep.blank
    exact hF head.begins hc hcut hsame

theorem length_le_writtenTail (hsep : Separates sep) (w : α → List Piece) : ∀ as : List α,
    as.length ≤ (writtenTail sep w as).length
  | [] => by simp
  | a :: as => by
    have := length_le_writtenTail hsep w as
    obtain ⟨rest, rfl⟩ := hsep.blank
    simp only [writtenTail, List.flatMap_cons, List.length_append, List.length_cons] at *
    omega

theorem gets_run (hsep : Separates sep)
    (hF : ∀ {ps r}, B ps → Cut ps → Cut (blank :: r) → solid (blank :: r) = solid ps →
      F (blank :: r))
    {ps ps' : List Piece} {as : List α} (h : Steps (StepRepeats step' sep w C u F B) ps as ps')
    (hc : Cut ps) (r : List Piece) (hr : solid r = solid ps') (hf : F r)
    (hstop : Gets step' r (· = none) r) (hcut : Cut (writtenTail sep w as ++ r)) :
    F (writtenTail sep w as ++ r) ∧
      Gets (many step') (writtenTail sep w as ++ r) (fun bs => bs.map u = as.map u) r := by
  obtain ⟨hf', hgives⟩ := gives_steps hsep hF h hc r hr hf hstop hcut
  refine ⟨hf', gets_many hgives ?_⟩
  have := length_le_writtenTail hsep w as
  rw [List.length_append]
  omega

end Runs

/-- An operator word that the first run met is met again in what is written. -/
theorem isOperator_written {word : Kind} {x : String} {ps rest : List Piece}
    (hop : isOperator word (unblank ps) = true) (hc : Cut ps)
    (hcut : Cut (blank :: ⟨word, x⟩ :: blank :: rest))
    (hsame : solid (blank :: ⟨word, x⟩ :: blank :: rest) = solid ps) :
    isOperator word (⟨word, x⟩ :: blank :: rest) = true := by
  have := isOperator_congr hcut hc hsame word
  rw [unblank_blank] at this
  exact this.trans hop

theorem orTerm_repeats (ho : o.SameGrammar o') (hi : inner.Repeat inner') {x : Position × Term}
    (h : orTerm o inner s = .ok (some x) s') (hc : Cut s.pieces) :
    StepRepeats (orTerm o' inner') [blank, ⟨.orWord, "OR"⟩, blank] (fun x => x.2.written .quoted)
      (fun x => NoGlue x.2.nodes) (fun x => x.2.unplaced) Ends (fun _ => True)
      s.pieces x s'.pieces := by
  refine ⟨orTerm_joined hi.spell h hc, trivial, fun r hr hf hcut => ?_⟩
  have hsame : solid ([blank, ⟨.orWord, "OR"⟩, blank] ++ x.2.written .quoted ++ r) =
      solid s.pieces := by
    obtain ⟨ps₁, -, hsame₁, hx⟩ := orTerm_joined hi.spell h hc
    rw [solid_append, solid_append, hr, hsame₁, hx.same, List.append_assoc]
  obtain ⟨s₁, hop, hs₁, ht⟩ := orTerm_some h
  have hc₁ : Cut s₁.pieces := by
    rw [hs₁]
    exact hc.of_suffix ((unblank_suffix _).trans
      ((List.tail_suffix _).trans (unblank_suffix _)))
  have hcut₁ : Cut (x.2.written .quoted ++ r) := by
    refine hcut.of_suffix ?_
    rw [List.append_assoc]
    exact List.suffix_append _ _
  unfold orTerm
  refine (gets_joiner_some (isOperator_written hop hc hcut hsame)).bind fun y hy => ?_
  obtain ⟨pos, rfl⟩ := Option.isSome_iff_exists.1 hy
  exact (term_repeats ho hi ht hc₁ r hr hf hcut₁).bind fun t' ht' => .pure ⟨_, rfl, ht'⟩

theorem unplaced_linkTerms : ∀ {first first' : Term} {others others' : List (Position × Term)},
    first'.unplaced = first.unplaced →
    others'.map (fun x => x.2.unplaced) = others.map (fun x => x.2.unplaced) →
    (linkTerms first' others').map Term.unplaced = (linkTerms first others).map Term.unplaced
  | first, first', [], [], hfirst, _ => by simp [linkTerms, hfirst]
  | ⟨_, _, _, _⟩, ⟨_, _, _, _⟩, (_, t) :: others, (_, t') :: others', hfirst, hothers => by
    simp only [List.map_cons, List.cons.injEq] at hothers
    simp only [Term.unplaced, Term.mk.injEq] at hfirst
    simp only [linkTerms, List.map_cons, unplaced_linkTerms hothers.1 hothers.2, Term.unplaced,
      hfirst.2.1, hfirst.2.2.1, Option.map_some]
  | _, _, [], _ :: _, _, h => by simp at h
  | _, _, _ :: _, [], _, h => by simp at h

theorem factor_repeats (ho : o.SameGrammar o') (hi : inner.Repeat inner') {f : Factor}
    (h : factor o inner s = .ok f s') (hc : Cut s.pieces) :
    Repeats (factor o' inner') (f.written .quoted) EndsFactor s'.pieces
      (fun f' => f'.unplaced = f.unplaced) := by
  intro r hr hf hcut
  obtain ⟨first, others, s₁, s₂, hs₁, hfirst, hothers, hterms⟩ := factor_ok h
  rw [← hs₁] at hc
  have hc₂ := hc.of_suffix (term_spells hi.spell hfirst hc).suffix
  have hsteps := many_ok orTerm_none
    (fun h hc => ⟨orTerm_repeats ho hi h hc, (orTerm_joined hi.spell h hc).suffix⟩) hothers hc₂
  obtain ⟨span, terms⟩ := f
  subst hterms
  rw [Factor.written, writtenTerms_eq, map_linkTerms (by rintro ⟨⟩ _; rfl), intercalate_eq,
    List.append_assoc] at hcut ⊢
  have hstop : Gets (orTerm o' inner') r (· = none) r := by
    unfold orTerm
    refine (gets_joiner_none hf.notOr).bind fun y hy => ?_
    subst hy
    exact .pure rfl
  obtain ⟨hends, hmany⟩ := gets_run separates_orWord (fun _ _ _ _ => by simp [Ends, blank])
    hsteps hc₂ r hr hf.ends hstop (hcut.of_suffix (List.suffix_append _ _))
  have hsame₂ := (Joined.steps separates_orWord (hsteps.mono StepRepeats.joined) hc₂).2.1
  unfold factor
  refine gets_peek.bind fun _ _ => ?_
  refine (term_repeats ho hi hfirst hc _ ?_ hends hcut).bind fun first' hfirst' => ?_
  · rw [solid_append, hr, hsame₂]
  refine hmany.bind fun others' hothers' => ?_
  refine (gets_spanFrom _).bind fun _ _ => .pure ?_
  simp only [Factor.unplaced, unplacedTerms_eq, unplaced_linkTerms hfirst' hothers']

/-! ## Sequences and expressions -/

/-- Where a factor starts there is no `OR`. -/
theorem not_orWord_of_opensFactor {ps : List Piece} (h : opensFactor o ps = true) :
    isOperator .orWord ps = false := by
  cases hop : isOperator .orWord ps with
  | false => rfl
  | true =>
    simp only [isOperator, Bool.and_eq_true, beq_iff_eq, Bool.not_eq_true'] at hop
    simp only [opensFactor, hop.1, hop.2] at h
    cases h

/-- Where there is an `AND` no factor starts, and there is no `OR`. -/
theorem not_opensFactor_of_andWord {ps : List Piece} (h : isOperator .andWord ps = true) :
    opensFactor o ps = false ∧ isOperator .orWord ps = false := by
  simp only [isOperator, Bool.and_eq_true, beq_iff_eq, Bool.not_eq_true'] at h
  constructor
  · simp only [opensFactor, h.1, h.2]
  · simp [isOperator, h.1]

theorem opensFactor_eq (ho : o.SameGrammar o') (ps : List Piece) :
    opensFactor o' ps = opensFactor o ps := by
  rw [opensFactor, opensFactor, ho.arrays, ho.structs]

theorem nextFactor_repeats (ho : o.SameGrammar o') (hi : inner.Repeat inner') {f : Factor}
    (h : nextFactor o inner s = .ok (some f) s') (hc : Cut s.pieces) :
    StepRepeats (nextFactor o' inner') [blank] (Factor.written .quoted) (fun f => NoGlue f.nodes)
      Factor.unplaced EndsFactor (fun ps => opensFactor o (unblank ps) = true)
      s.pieces f s'.pieces := by
  have hjoined := nextFactor_joined hi.spell h hc
  obtain ⟨s₁, -, hopens, hs₁, hf⟩ := nextFactor_some h
  refine ⟨hjoined, hopens, fun r hr hend hcut => ?_⟩
  have hc₁ : Cut s₁.pieces := hs₁ ▸ hc.of_suffix (unblank_suffix _)
  have hspell := factor_spells hi.spell hf hc₁
  have hcut₁ : Cut (f.written .quoted ++ r) := hcut.of_suffix (List.suffix_cons _ _)
  have hopens' : opensFactor o' (f.written .quoted ++ r) = true := by
    have hsame : solid (f.written .quoted ++ r) = solid s₁.pieces := by
      rw [solid_append, hr, hspell.same]
    have := opensFactor_congr hcut₁ hc₁ hsame ho
    rw [hspell.unblank_append, unblank_eq_self hspell.headKind_ne, hs₁] at this
    exact this.trans hopens
  unfold nextFactor
  refine gets_get.bind fun _ _ => ?_
  refine (gets_skipBlank blank rfl).bind fun x hx => ?_
  obtain ⟨t, rfl, ht⟩ := hx
  refine gets_startsFactor.bind fun b hb => ?_
  rw [if_pos (hb.trans hopens')]
  refine (gets_requireSpace ht _).bind fun _ _ => ?_
  exact (factor_repeats ho hi hf hc₁ r hr hend hcut₁).bind fun f' hf' => .pure ⟨f', rfl, hf'⟩

theorem nextFactor_stops (ho : o.SameGrammar o') {r : List Piece} (h : EndsSequence o r) :
    Gets (nextFactor o' inner') r (· = none) r := by
  unfold nextFactor
  refine gets_get.bind fun saved hsaved => ?_
  by_cases hblank : headKind r = .whitespace
  · obtain ⟨p, ps, rfl, hp⟩ := exists_cons_of_headKind hblank (by simp)
    have hopens := h.notFactor hblank
    rw [unblank_cons_blank hp] at hopens
    refine (gets_skipBlank p hp).bind fun x hx => ?_
    obtain ⟨t, rfl, -⟩ := hx
    refine gets_startsFactor.bind fun b hb => ?_
    rw [if_neg (by rw [hb, opensFactor_eq ho, hopens]; simp)]
    exact (gets_restore hsaved).bind fun _ _ => .pure rfl
  · refine (gets_skipBlank_none hblank).bind fun x hx => ?_
    subst hx
    exact .pure rfl

theorem sequence_repeats (ho : o.SameGrammar o') (hi : inner.Repeat inner') {x : Sequence}
    (h : sequence o inner s = .ok x s') (hc : Cut s.pieces) :
    Repeats (sequence o' inner') (x.written .quoted) (EndsSequence o) s'.pieces
      (fun x' => x'.unplaced = x.unplaced) := by
  intro r hr hf hcut
  obtain ⟨first, others, s₁, s₂, hs₁, hfirst, hothers, hfactors⟩ := sequence_ok h
  rw [← hs₁] at hc
  have hc₂ := hc.of_suffix (factor_spells hi.spell hfirst hc).suffix
  have hsteps := many_ok nextFactor_none
    (fun h hc => ⟨nextFactor_repeats ho hi h hc, (nextFactor_joined hi.spell h hc).suffix⟩)
    hothers hc₂
  obtain ⟨span, factors⟩ := x
  subst hfactors
  rw [Sequence.written, writtenFactors_eq, List.map_cons, intercalate_eq,
    List.append_assoc] at hcut ⊢
  obtain ⟨hends, hmany⟩ := gets_run separates_blank (fun hb hc hcut hsame =>
      ⟨by simp [Ends, blank], by
        rw [isOperator_congr hcut hc hsame]
        exact not_orWord_of_opensFactor hb⟩)
    hsteps hc₂ r hr hf.toEndsFactor (nextFactor_stops ho hf)
    (hcut.of_suffix (List.suffix_append _ _))
  have hsame₂ := (Joined.steps separates_blank (hsteps.mono StepRepeats.joined) hc₂).2.1
  unfold sequence
  refine gets_peek.bind fun _ _ => ?_
  refine (factor_repeats ho hi hfirst hc _ ?_ hends hcut).bind fun first' hfirst' => ?_
  · rw [solid_append, hr, hsame₂]
  refine hmany.bind fun others' hothers' => ?_
  refine (gets_spanFrom _).bind fun _ _ => .pure ?_
  simp only [Sequence.unplaced, unplacedFactors_eq, List.map_cons, hfirst', hothers']

theorem andSequence_repeats (ho : o.SameGrammar o') (hi : inner.Repeat inner') {x : Sequence}
    (h : andSequence o inner s = .ok (some x) s') (hc : Cut s.pieces) :
    StepRepeats (andSequence o' inner') [blank, ⟨.andWord, "AND"⟩, blank]
      (Sequence.written .quoted) (fun x => NoGlue x.nodes) Sequence.unplaced (EndsSequence o)
      (fun ps => isOperator .andWord (unblank ps) = true) s.pieces x s'.pieces := by
  have hjoined := andSequence_joined hi.spell h hc
  obtain ⟨s₁, hop, hs₁, hx⟩ := andSequence_some h
  refine ⟨hjoined, hop, fun r hr hf hcut => ?_⟩
  have hsame : solid ([blank, ⟨.andWord, "AND"⟩, blank] ++ x.written .quoted ++ r) =
      solid s.pieces := by
    obtain ⟨ps₁, -, hsame₁, hx⟩ := hjoined
    rw [solid_append, solid_append, hr, hsame₁, hx.same, List.append_assoc]
  have hc₁ : Cut s₁.pieces := by
    rw [hs₁]
    exact hc.of_suffix ((unblank_suffix _).trans
      ((List.tail_suffix _).trans (unblank_suffix _)))
  have hcut₁ : Cut (x.written .quoted ++ r) := by
    refine hcut.of_suffix ?_
    rw [List.append_assoc]
    exact List.suffix_append _ _
  unfold andSequence
  refine (gets_joiner_some (isOperator_written hop hc hcut hsame)).bind fun y hy => ?_
  obtain ⟨pos, rfl⟩ := Option.isSome_iff_exists.1 hy
  exact (sequence_repeats ho hi hx hc₁ r hr hf hcut₁).bind fun x' hx' => .pure ⟨x', rfl, hx'⟩

theorem expressionBody_repeats (ho : o.SameGrammar o') (hi : inner.Repeat inner') {e : Expression}
    (h : expressionBody o inner s = .ok e s') (hc : Cut s.pieces) :
    Repeats (expressionBody o' inner') (e.written .quoted) EndsExpression s'.pieces
      (fun e' => e'.unplaced = e.unplaced) := by
  intro r hr hf hcut
  obtain ⟨first, others, s₁, s₂, hs₁, hfirst, hothers, hsequences⟩ := expressionBody_ok h
  rw [← hs₁] at hc
  have hc₂ := hc.of_suffix (sequence_spells hi.spell hfirst hc).suffix
  have hsteps := many_ok andSequence_none
    (fun h hc => ⟨andSequence_repeats ho hi h hc, (andSequence_joined hi.spell h hc).suffix⟩)
    hothers hc₂
  obtain ⟨span, sequences⟩ := e
  subst hsequences
  rw [Expression.written, writtenSequences_eq, List.map_cons, intercalate_eq,
    List.append_assoc] at hcut ⊢
  have hstop : Gets (andSequence o' inner') r (· = none) r := by
    have hand : isOperator .andWord (unblank r) = false := by
      rw [unblank_eq_self (by rcases hf with h | h <;> simp [h]), isOperator]
      rcases hf with h | h <;> simp [h]
    unfold andSequence
    refine (gets_joiner_none hand).bind fun y hy => ?_
    subst hy
    exact .pure rfl
  obtain ⟨hends, hmany⟩ := gets_run separates_andWord (fun hb hc hcut hsame => by
      have hnot := not_opensFactor_of_andWord (o := o) hb
      refine ⟨⟨by simp [Ends, blank], ?_⟩, fun _ => ?_⟩
      · rw [isOperator_congr hcut hc hsame]
        exact hnot.2
      · rw [opensFactor_congr hcut hc hsame (.refl o)]
        exact hnot.1)
    hsteps hc₂ r hr hf.endsSequence hstop (hcut.of_suffix (List.suffix_append _ _))
  have hsame₂ := (Joined.steps separates_andWord (hsteps.mono StepRepeats.joined) hc₂).2.1
  unfold expressionBody
  refine gets_peek.bind fun _ _ => ?_
  refine (sequence_repeats ho hi hfirst hc _ ?_ hends hcut).bind fun first' hfirst' => ?_
  · rw [solid_append, hr, hsame₂]
  refine hmany.bind fun others' hothers' => ?_
  refine (gets_spanFrom _).bind fun _ _ => .pure ?_
  simp only [Expression.unplaced, unplacedSequences_eq, List.map_cons, hfirst', hothers']

/-- Before the end of the text stand blanks only. -/
theorem solid_of_eof {ps : List Piece} (hc : Cut ps) (h : headKind (unblank ps) = .eof) :
    solid ps = [] := by
  rw [← solid_unblank]
  cases hu : unblank ps with
  | nil => rfl
  | cons p qs =>
    rw [hu] at h
    have hsuf : p :: qs <:+ ps := hu ▸ unblank_suffix ps
    exact absurd h (hc.of_suffix hsuf).head.ne_eof

theorem innerAt_repeat (ho : o.SameGrammar o') : ∀ levels,
    (innerAt o levels).Repeat (innerAt o' levels)
  | 0 => ⟨innerAt_spell o 0, fun h => absurd h tooDeep_ok, fun h => absurd h tooDeep_ok⟩
  | levels + 1 =>
    have hi := innerAt_repeat ho levels
    ⟨innerAt_spell o (levels + 1), fun h hc => expressionBody_repeats ho hi h hc,
      fun h hc => comparableBody_repeats ho hi h hc⟩

theorem gets_next_eof : Gets next [] (fun t => t.kind = .eof) [] := by
  intro t ht
  refine ⟨_, _, rfl, ?_, ht.see_head.advance⟩
  show t.head.kind = .eof
  rw [t.head_kind, ht.pieces]
  rfl

/-- A filter that was read is read again from its written form, if that reads back. -/
theorem filter_repeats (ho : o.SameGrammar o') {e : Expression}
    (h : filter o s = .ok (some e) s') (hc : Cut s.pieces) (hcut : Cut (e.written .quoted)) :
    Gets (filter o') (e.written .quoted)
      (fun x => ∃ e', x = some e' ∧ e'.unplaced = e.unplaced) [] := by
  obtain ⟨s₁, s₂, hs₁, hne, he, hend⟩ := filter_ok h
  have hc₁ : Cut s₁.pieces := hs₁ ▸ hc.of_suffix (unblank_suffix _)
  have hspell := expression_spells he hc₁
  have hempty := solid_of_eof (hc₁.of_suffix hspell.suffix) hend
  have hhead : headKind (e.written .quoted) = headKind s₁.pieces := by
    simpa using hspell.headKind_append []
  unfold filter
  refine (gets_skipBlank_none (by rw [hhead]; exact hspell.headKind_ne)).bind fun _ _ => ?_
  refine gets_peekKind.bind fun k hk => ?_
  rw [if_neg (by rw [hk, hhead]; exact hne), ho.depth]
  have hrun := (innerAt_repeat ho o.maxDepth).expression he hc₁ [] hempty.symm (.inr rfl)
    (by simpa using hcut)
  rw [List.append_nil] at hrun
  refine hrun.bind fun e' he' => ?_
  refine (gets_skipBlank_none (by simp)).bind fun _ _ => ?_
  refine gets_next_eof.bind fun t ht => ?_
  rw [if_pos ht]
  refine gets_get.bind fun s hs => ?_
  rw [if_neg (by rw [hs.clean]; omega)]
  exact .pure ⟨e', rfl, he'⟩

end Parser

/-! ## The round trip -/

/-- The tokens of a text, as pieces. -/
theorem pieces_ofString (input : String) :
    input.toList = chars (ParseState.ofString input).pieces ∧
      Cut (ParseState.ofString input).pieces :=
  chain_scan _ _

theorem parse_ok {o : ParserOptions} {input : String} {x : Option Expression} :
    parse o input = .ok x ↔ ∃ s, Parser.filter o (.ofString input) = .ok x s := by
  simp only [parse, parseReporting]
  cases Parser.filter o (.ofString input) with
  | ok y s => simp
  | error err s => simp

/-- What a filter was read from and what it is written as: the same pieces but for blanks, and the
written form reads back just when no dash stands before a digit. -/
theorem parse_spells {o : ParserOptions} {input : String} {e : Expression}
    (h : parse o input = .ok (some e)) :
    solid (ParseState.ofString input).pieces = solid (e.written .quoted) ∧
      Chain Tidy (e.written .quoted) [] ∧ (Cut (e.written .quoted) ↔ NoGlue e.nodes) := by
  obtain ⟨s', h⟩ := parse_ok.1 h
  obtain ⟨s₁, s₂, hs₁, -, he, hend⟩ := Parser.filter_ok h
  have hc := (pieces_ofString input).2
  have hc₁ : Cut s₁.pieces := hs₁ ▸ hc.of_suffix (unblank_suffix _)
  have hspell := Parser.expression_spells he hc₁
  have hempty := Parser.solid_of_eof (hc₁.of_suffix hspell.suffix) hend
  refine ⟨?_, hspell.tidy [], hspell.reads [] stops_nil⟩
  rw [← solid_unblank, ← hs₁, hspell.same, hempty, List.append_nil]

/-- Reading the text of a tree gives the tree again, under any options of the grammar. -/
theorem parse_render {o o' : ParserOptions} (ho : o.SameGrammar o') {input : String}
    {e : Expression} (h : parse o input = .ok (some e)) (hg : NoGlue e.nodes) :
    ∃ e', parse o' (e.render .quoted) = .ok (some e') ∧ e'.unplaced = e.unplaced := by
  obtain ⟨-, htidy, hreads⟩ := parse_spells h
  have hcut := hreads.2 hg
  obtain ⟨s', hrun⟩ := parse_ok.1 h
  have hgets := Parser.filter_repeats ho hrun (pieces_ofString input).2 hcut
  have hpieces : (ParseState.ofString (e.render .quoted)).pieces = e.written .quoted :=
    scan_pieces_iff.2 ⟨toList_render _, hcut⟩
  obtain ⟨x, t', hx, ⟨e', rfl, he'⟩, -⟩ := hgets _ ⟨hpieces, legal_of_chain htidy, rfl⟩
  exact ⟨e', parse_ok.2 ⟨t', hx⟩, he'⟩

/-- The pieces of a text are known from the text and from the pieces that are no blanks. -/
theorem eq_of_solid_eq : ∀ {ps qs : List Piece}, Chain Tidy ps [] → Cut qs →
    solid ps = solid qs → chars ps = chars qs → ps = qs
  | [], [], _, _, _, _ => rfl
  | [], q :: qs, _, hq, _, hchars => by
    obtain ⟨c, cs, ht, -⟩ := hq.head
    simp [ht] at hchars
  | p :: ps, [], hp, _, hsolid, hchars => by
    by_cases hk : p.kind = .whitespace
    · obtain ⟨c, cs, ht, -⟩ := hp.1.2 hk
      simp [ht] at hchars
    · rw [solid_cons hk] at hsolid
      cases hsolid
  | p :: ps, q :: qs, hp, hq, hsolid, hchars => by
    have hq' : Cut qs := hq.of_suffix (List.suffix_cons q qs)
    rw [chars_cons, chars_cons] at hchars
    by_cases hk : p.kind = .whitespace
    · have hl : p.Lexes (chars ps) := by simpa using hp.1.2 hk
      obtain ⟨rfl, hrest⟩ := hl.unique hq.head hchars
      rw [solid_cons_blank hk, solid_cons_blank hk] at hsolid
      rw [eq_of_solid_eq hp.2 hq' hsolid hrest]
    · rw [solid_cons hk] at hsolid
      -- the piece stands somewhere in the other run, so its text starts with no blank
      have hmem : p ∈ solid (q :: qs) := by simp [← hsolid]
      obtain ⟨before, after, hsplit⟩ := List.append_of_mem (List.mem_filter.1 hmem).1
      have hl : p.Lexes (chars after) := by
        rw [hsplit] at hq
        exact (hq.of_suffix (List.suffix_append _ _)).head
      have hqk : q.kind ≠ .whitespace := by
        intro hqk
        obtain ⟨c, cs, ht, hiff⟩ := hl.head
        obtain ⟨d, ds, ht', hiff'⟩ := hq.head.head
        rw [ht, ht', List.cons_append, List.cons_append] at hchars
        exact hk (hiff.1 ((List.cons.inj hchars).1 ▸ hiff'.2 hqk))
      rw [solid_cons hqk] at hsolid
      obtain ⟨rfl, hsolid'⟩ := List.cons.inj hsolid
      rw [eq_of_solid_eq hp.2 hq' hsolid' (List.append_cancel_left hchars)]

/-- A tree that is read again from its text has no dash before a digit. -/
theorem noGlue_of_parse_render {o o' : ParserOptions} {input : String} {e e' : Expression}
    (h : parse o input = .ok (some e)) (h' : parse o' (e.render .quoted) = .ok (some e'))
    (he : e'.unplaced = e.unplaced) : NoGlue e.nodes := by
  obtain ⟨-, htidy, hreads⟩ := parse_spells h
  obtain ⟨hsolid, -, -⟩ := parse_spells h'
  obtain ⟨hchars, hcut⟩ := pieces_ofString (e.render .quoted)
  rw [← Expression.written_unplaced .quoted e', he, Expression.written_unplaced] at hsolid
  rw [Expression.render, toList_render] at hchars
  rw [← hreads, eq_of_solid_eq htidy hcut hsolid.symm hchars]
  exact hcut

/-- A tree that was read from a text is read again from its own text, and then has the same text
again, just when no term of it is a dash before a digit. -/
theorem parse_render_iff (o : ParserOptions) (input : String) (e : Expression)
    (h : parse o input = .ok (some e)) :
    (∃ e', parse o (e.render .quoted) = .ok (some e') ∧ e'.unplaced = e.unplaced ∧
        e'.render .quoted = e.render .quoted) ↔
      ∀ t, Node.term t ∈ e.nodes → t.gluesDash = false := by
  constructor
  · rintro ⟨e', h', he, -⟩
    exact noGlue_of_parse_render h h' he
  · intro hg
    obtain ⟨e', h', he⟩ := parse_render (.refl o) h hg
    exact ⟨e', h', he, Expression.render_eq_of_unplaced .quoted he⟩

/-- What holds of the tree of a text, as a check that can be run. -/
theorem exists_of_parse_any (o : ParserOptions) (input : String) (P : Expression → Prop)
    [DecidablePred P] (h : (parse o input).toOption.join.any (fun e => decide (P e)) = true) :
    ∃ e, parse o input = .ok (some e) ∧ P e := by
  cases hp : parse o input with
  | error err =>
    rw [hp] at h
    cases h
  | ok x =>
    cases x with
    | none =>
      rw [hp] at h
      cases h
    | some e =>
      rw [hp] at h
      exact ⟨e, rfl, of_decide_eq_true h⟩

/-- A blank after the dash is lost in the text, and with it the dash: `-3` is a number. -/
theorem dash_lost_before_digit : ∃ e, parse {} "- 3" = .ok (some e) ∧
    ¬ ∃ e', parse {} (e.render .quoted) = .ok (some e') ∧ e'.unplaced = e.unplaced ∧
      e'.render .quoted = e.render .quoted := by
  obtain ⟨e, h, hglue⟩ := exists_of_parse_any {} "- 3" (fun e => ¬ NoGlue e.nodes)
    (by decide +kernel)
  exact ⟨e, h, fun hback => hglue ((parse_render_iff {} "- 3" e h).1 hback)⟩

/-- The text of a tree without a dash before a digit is its strict form. -/
theorem parse_strict_render (o : ParserOptions) (input : String) (e : Expression)
    (h : parse o input = .ok (some e))
    (hg : ∀ t, Node.term t ∈ e.nodes → t.gluesDash = false) :
    ∃ e', parse o.strict (e.render .quoted) = .ok (some e') ∧ e'.unplaced = e.unplaced :=
  parse_render (.strict o) h hg

/-- Loose blanks, a keyword as a name, a dash before a name and a nested struct. -/
theorem strict_form_of_loose_text : ∃ e,
    parse .allExtensions "- a.IN : ( NOT b OR\tc=[ 1 ,-2] )  d<T\x7bx : 3s \x7d" = .ok (some e) ∧
      ∃ e', parse ParserOptions.allExtensions.strict (e.render .quoted) = .ok (some e') ∧
        e'.unplaced = e.unplaced := by
  obtain ⟨e, h, hg⟩ := exists_of_parse_any .allExtensions
    "- a.IN : ( NOT b OR\tc=[ 1 ,-2] )  d<T\x7bx : 3s \x7d" (fun e => NoGlue e.nodes)
    (by decide +kernel)
  exact ⟨e, h, parse_strict_render .allExtensions _ e h hg⟩

end ListQuery.Filter
