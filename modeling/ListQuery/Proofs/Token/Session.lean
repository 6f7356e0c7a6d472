/-
A lexer in use, stepped by any calls in any order. Wherever it has gone back to, it stands in front
of a token of its text and hands out that token; what it has reported is what it has handed out of
the illegal tokens, each once and in the order of the text.

All tokens handed out so far are a front part of the tokens of the text, and the reports are theirs
(`Logged`). Every place that was marked lies within that part (`Mark.Within`), so going back never
skips a token, and reading on either repeats a token of the part or adds the one behind it
(`Logged.look`).
-/
import Mathlib.Data.List.Dedup
import ListQuery.Proofs.Token.Cover

namespace ListQuery.Filter

open Token

/-- The report that an illegal token calls for. -/
def Token.report? (t : Token) : Option (Report Fault) :=
  match t.kind with
  | .illegal fault => some ⟨t.pos, fault⟩
  | _ => none

namespace Token

theorem pos_of_report? {t : Token} {r : Report Fault} (h : t.report? = some r) :
    r.pos = t.pos := by
  unfold report? at h
  split at h <;> cases h
  rfl

theorem isSome_report? (t : Token) : t.report?.isSome = t.kind.isIllegal := by
  obtain ⟨kind, text, pos⟩ := t
  cases kind <;> rfl

end Token

namespace FaultLog

/-- Only an illegal token that starts behind all that was reported is taken note of. -/
theorem see_eq (log : FaultLog) (t : Token) :
    log.see t =
      if t.kind.isIllegal = true ∧ log.reportedUntil ≤ t.pos.offset then
        (⟨log.count + 1, t.pos.offset + 1⟩, t.report?)
      else (log, none) := by
  obtain ⟨kind, text, pos⟩ := t
  cases kind <;> simp [see, Kind.isIllegal, report?]

end FaultLog

namespace Lexer

/-- What can be asked of a lexer. It goes back to one of the places marked so far, by its number. -/
inductive Call where
  | scan
  | peek (consume : Token → Bool)
  | mark
  | restore (i : Nat)

/-- A lexer, the places that were marked and the tokens that were handed out, each in order. -/
structure Session where
  lexer : Lexer
  marks : List Mark
  handed : List Token

namespace Session

def start (input : String) : Session := ⟨ofString input, [], []⟩

def step (s : Session) : Call → Session
  | .scan => { s with lexer := s.lexer.scan.2, handed := s.handed ++ [s.lexer.scan.1] }
  | .peek consume =>
    { s with
      lexer := (s.lexer.peek consume).2, handed := s.handed ++ [(s.lexer.peek consume).1] }
  | .mark => { s with marks := s.marks ++ [s.lexer.mark] }
  | .restore i => { s with lexer := (s.marks[i]?).elim s.lexer s.lexer.restore }

def run (input : String) (calls : List Call) : Session := calls.foldl step (start input)

end Session

theorem peek_eq (l : Lexer) (consume : Token → Bool) :
    l.peek consume =
      (l.mark.ahead.1,
        if consume l.mark.ahead.1 = true then l.look.restore l.mark.ahead.2 else l.look) := by
  unfold peek
  cases h : l.peeked with
  | none => rfl
  | some x => rw [l.peeked_eq x h]; rfl

@[simp] theorem mark_look (l : Lexer) : l.look.mark = l.mark := by
  unfold look
  split <;> rfl

/-- With a front part of the tokens seen, the token behind a smaller one is the next one to see or
was seen. -/
theorem seen_cases {before seen after : List Token} {t : Token}
    (hnodup : (before ++ t :: after).Nodup) (hbefore : before <+: seen)
    (hseen : seen <+: before ++ t :: after) :
    (t ∉ seen ∧ seen = before) ∨ before ++ [t] <+: seen := by
  obtain ⟨more, rfl⟩ := hbefore
  rw [List.prefix_append_right_inj] at hseen
  cases more with
  | nil =>
    refine .inl ⟨?_, List.append_nil before⟩
    rw [List.append_nil]
    exact fun ht => (List.nodup_append.1 hnodup).2.2 t ht t List.mem_cons_self rfl
  | cons u more =>
    obtain rfl : u = t := (List.cons_prefix_cons.1 hseen).1
    exact .inr ⟨more, by simp⟩

/-- The tokens that start no later than a token are those up to it. -/
theorem offset_le_iff {input : String} {before after : List Token} {t u : Token}
    (htokens : Filter.tokenize input = before ++ t :: after) (hu : u ∈ Filter.tokenize input) :
    u.pos.offset ≤ t.pos.offset ↔ u ∈ before ++ [t] := by
  obtain ⟨-, hafter, hbefore⟩ := List.pairwise_append.1 (htokens ▸ tokens_pairwise input)
  rw [htokens, List.mem_append, List.mem_cons] at hu
  rw [List.mem_append, List.mem_singleton]
  constructor
  · intro hle
    rcases hu with hu | rfl | hu
    · exact .inl hu
    · exact .inr rfl
    · exact absurd (List.rel_of_pairwise_cons hafter hu) (Nat.not_lt.2 hle)
  · rintro (hu | rfl)
    · exact Nat.le_of_lt (hbefore u hu t List.mem_cons_self)
    · exact Nat.le_refl _

/-- The place is a seam of the tokens seen so far: those before it are all seen. -/
def Mark.Within (m : Mark) (input : String) (seen : List Token) : Prop :=
  ∃ before, before <+: seen ∧ Filter.tokenize input = before ++ m.tokens

namespace Mark.Within

variable {m : Mark} {input : String} {seen seen' : List Token}

theorem mono (h : m.Within input seen) (hs : seen <+: seen') : m.Within input seen' := by
  obtain ⟨before, hbefore, htokens⟩ := h
  exact ⟨before, hbefore.trans hs, htokens⟩

/-- The token in front of a place is the one that starts there. -/
theorem find? (h : m.Within input seen) :
    (Filter.tokenize input).find? (fun t => t.pos = m.position) = some m.ahead.1 := by
  obtain ⟨before, -, htokens⟩ := h
  rw [m.tokens_eq] at htokens
  have hpos : m.ahead.1.pos = m.position := by
    obtain ⟨position, rest⟩ := m
    cases rest <;> rfl
  obtain ⟨-, -, hbefore⟩ := List.pairwise_append.1 (htokens ▸ tokens_pairwise input)
  have hnone : before.find? (fun t => t.pos = m.position) = none := by
    refine List.find?_eq_none.2 fun t ht he => ?_
    have hlt := hbefore t ht _ List.mem_cons_self
    rw [hpos, of_decide_eq_true he] at hlt
    exact Nat.lt_irrefl _ hlt
  rw [htokens, List.find?_append, hnone, Option.none_or, List.find?_cons_of_pos (by simp [hpos])]

/-- Behind a token that was seen is a place within what was seen. -/
theorem ahead (h : m.Within input seen) (hseen : seen <+: Filter.tokenize input)
    (ht : m.ahead.1 ∈ seen) : m.ahead.2.Within input seen := by
  by_cases hk : m.ahead.1.kind = .eof
  · -- behind the end is the end
    have hm : m.ahead.2 = m := by
      obtain ⟨position, rest⟩ := m
      obtain rfl : rest = [] := (ahead_eof_iff _).1 hk
      rfl
    rwa [hm]
  · obtain ⟨before, hbefore, htokens⟩ := h
    rw [m.tokens_eq, if_neg hk] at htokens
    obtain ⟨hnot, -⟩ | hpart :=
      seen_cases (htokens ▸ tokens_nodup input) hbefore (htokens ▸ hseen)
    · exact absurd ht hnot
    · exact ⟨before ++ [m.ahead.1], hpart, by rw [htokens, List.append_assoc]; rfl⟩

end Mark.Within

/-! ## What has been reported -/

/-- What the lexer has reported is what the tokens seen so far call for, and it knows which they
are by the offset that reports have gone to. -/
structure Logged (input : String) (seen : List Token) (l : Lexer) : Prop where
  front : seen <+: Filter.tokenize input
  reports : l.reports = seen.filterMap report?
  count : l.log.count = l.reports.length
  reached : ∀ t ∈ Filter.tokenize input, t.kind.isIllegal = true →
    (t.pos.offset < l.log.reportedUntil ↔ t ∈ seen)

namespace Logged

variable {input : String} {seen : List Token} {l : Lexer}

theorem congr {l' : Lexer} (h : Logged input seen l) (hlog : l'.log = l.log)
    (hreports : l'.reports = l.reports) : Logged input seen l' :=
  ⟨h.front, hreports ▸ h.reports, hlog ▸ hreports ▸ h.count, hlog ▸ h.reached⟩

/-- A token that was seen before is not reported again. -/
theorem see_of_mem (h : Logged input seen l) {t : Token} (ht : t ∈ seen) :
    (l.see t).log = l.log ∧ (l.see t).reports = l.reports := by
  have hskip : ¬(t.kind.isIllegal = true ∧ l.log.reportedUntil ≤ t.pos.offset) := by
    rintro ⟨hill, hle⟩
    have := (h.reached t (h.front.subset ht) hill).2 ht
    omega
  simp [Lexer.see, FaultLog.see_eq, hskip]

/-- The token behind all that was seen is reported if it is illegal. -/
theorem see_next (h : Logged input seen l) {t : Token} {after : List Token}
    (htokens : Filter.tokenize input = seen ++ t :: after) (hnew : t ∉ seen) :
    Logged input (seen ++ [t]) (l.see t) := by
  have hmem : t ∈ Filter.tokenize input := htokens ▸ by simp
  have hpart : seen ++ [t] <+: Filter.tokenize input := ⟨after, by simp [htokens]⟩
  by_cases hill : t.kind.isIllegal = true
  · have hle : l.log.reportedUntil ≤ t.pos.offset :=
      Nat.not_lt.1 fun hlt => hnew ((h.reached t hmem hill).1 hlt)
    obtain ⟨r, hr⟩ := Option.isSome_iff_exists.1 (t.isSome_report?.trans hill)
    have hlog : (l.see t).log = ⟨l.log.count + 1, t.pos.offset + 1⟩ := by
      simp [Lexer.see, FaultLog.see_eq, hill, hle]
    have hreports : (l.see t).reports = l.reports ++ [r] := by
      simp [Lexer.see, FaultLog.see_eq, hill, hle, hr]
    refine ⟨hpart, ?_, ?_, ?_⟩
    · rw [hreports, h.reports, List.filterMap_append, List.filterMap_cons, hr, List.filterMap_nil]
    · rw [hlog, hreports, h.count, List.length_append, List.length_singleton]
    · intro u hu _
      rw [hlog]
      exact Nat.lt_succ_iff.trans (offset_le_iff htokens hu)
  · have hsame : (l.see t).log = l.log ∧ (l.see t).reports = l.reports := by
      simp [Lexer.see, FaultLog.see_eq, hill]
    have hnone : t.report? = none := by
      rw [← Option.not_isSome_iff_eq_none, isSome_report?]
      exact hill
    refine ⟨hpart, ?_, ?_, ?_⟩
    · rw [hsame.2, h.reports, List.filterMap_append, List.filterMap_cons, hnone]
      simp
    · rw [hsame.1, hsame.2, h.count]
    · intro u hu huill
      rw [hsame.1, h.reached u hu huill, List.mem_append, List.mem_singleton, or_iff_left]
      rintro rfl
      exact hill huill

/-- Looking at the token in front adds it to what was seen. -/
theorem look (h : Logged input seen l) (hm : l.mark.Within input seen)
    (hp : ∀ x ∈ l.peeked, x.1 ∈ seen) :
    ∃ seen', Logged input seen' l.look ∧ seen <+: seen' ∧
      ∀ t, t ∈ seen' ↔ t ∈ seen ∨ t = l.mark.ahead.1 := by
  have hold (ht : l.mark.ahead.1 ∈ seen) (t : Token) :
      t ∈ seen ↔ t ∈ seen ∨ t = l.mark.ahead.1 :=
    ⟨.inl, fun h => h.elim id fun he => he ▸ ht⟩
  unfold Lexer.look
  cases hpeek : l.peeked with
  | some x =>
    have hx : x = l.mark.ahead := l.peeked_eq x hpeek
    exact ⟨seen, h, List.prefix_rfl, hold (hx ▸ hp x hpeek)⟩
  | none =>
    obtain ⟨before, hbefore, htokens⟩ := hm
    rw [l.mark.tokens_eq] at htokens
    obtain ⟨hnew, rfl⟩ | hpart :=
      seen_cases (htokens ▸ tokens_nodup input) hbefore (htokens ▸ h.front)
    · refine ⟨seen ++ [l.mark.ahead.1], (h.see_next htokens hnew).congr rfl rfl,
        List.prefix_append _ _, fun t => ?_⟩
      rw [List.mem_append, List.mem_singleton]
    · have ht : l.mark.ahead.1 ∈ seen := hpart.subset (by simp)
      obtain ⟨hlog, hreports⟩ := h.see_of_mem ht
      exact ⟨seen, h.congr hlog hreports, List.prefix_rfl, hold ht⟩

end Logged

/-! ## One call and all calls -/

namespace Session

/-- What every call keeps: `seen` are the tokens handed out so far, in the order of the text. -/
structure Inv (input : String) (seen : List Token) (s : Session) : Prop where
  logged : Logged input seen s.lexer
  front : s.lexer.mark.Within input seen
  marks : ∀ m ∈ s.marks, m.Within input seen
  peeked : ∀ x ∈ s.lexer.peeked, x.1 ∈ seen
  handed : ∀ t, t ∈ s.handed ↔ t ∈ seen

namespace Inv

variable {input : String} {seen : List Token} {s : Session}

theorem start (input : String) : Inv input [] (Session.start input) where
  logged := ⟨List.nil_prefix, rfl, rfl, fun t _ _ => by simp [Session.start, ofString]⟩
  front := ⟨[], List.nil_prefix, rfl⟩
  marks := by simp [Session.start]
  peeked := by simp [Session.start, ofString]
  handed := by simp [Session.start]

/-- Going to a place within what was seen. -/
theorem restore (h : Inv input seen s) {m : Mark} (hm : m.Within input seen) :
    Inv input seen { s with lexer := s.lexer.restore m } where
  logged := h.logged.congr rfl rfl
  front := hm
  marks := h.marks
  peeked := by simp [Lexer.restore]
  handed := h.handed

/-- Handing out the token in front, which is not passed. -/
theorem look (h : Inv input seen s) :
    ∃ seen', s.lexer.mark.ahead.1 ∈ seen' ∧ Inv input seen'
      { s with lexer := s.lexer.look, handed := s.handed ++ [s.lexer.mark.ahead.1] } := by
  obtain ⟨seen', hlogged, hpart, hseen⟩ := h.logged.look h.front h.peeked
  have hfront : s.lexer.mark.ahead.1 ∈ seen' := (hseen _).2 (.inr rfl)
  refine ⟨seen', hfront, hlogged, ?_, fun m hm => (h.marks m hm).mono hpart, ?_, fun t => ?_⟩
  · rw [mark_look]
    exact h.front.mono hpart
  · intro x hx
    have hx' := s.lexer.look.peeked_eq x hx
    change x = s.lexer.look.mark.ahead at hx'
    rw [hx', mark_look]
    exact hfront
  · rw [List.mem_append, List.mem_singleton, h.handed, hseen]

/-- Handing out the token in front and passing it. -/
theorem pass (h : Inv input seen s) :
    ∃ seen', Inv input seen'
      { s with
        lexer := s.lexer.look.restore s.lexer.mark.ahead.2
        handed := s.handed ++ [s.lexer.mark.ahead.1] } := by
  obtain ⟨seen', hfront, hinv⟩ := h.look
  have hahead := hinv.front.ahead hinv.logged.front
  rw [mark_look] at hahead
  exact ⟨seen', hinv.restore (hahead hfront)⟩

/-- Every call keeps the invariant. -/
theorem step (h : Inv input seen s) (call : Call) : ∃ seen', Inv input seen' (s.step call) := by
  cases call with
  | scan =>
    simp only [Session.step, scan_eq]
    exact h.pass
  | peek consume =>
    simp only [Session.step, peek_eq]
    split
    · exact h.pass
    · obtain ⟨seen', -, hinv⟩ := h.look
      exact ⟨seen', hinv⟩
  | mark =>
    refine ⟨seen, h.logged, h.front, fun m hm => ?_, h.peeked, h.handed⟩
    rcases List.mem_append.1 hm with hm | hm
    · exact h.marks m hm
    · rw [List.mem_singleton.1 hm]
      exact h.front
  | restore i =>
    simp only [Session.step]
    cases hm : s.marks[i]? with
    | none => exact ⟨seen, h⟩
    | some m => exact ⟨seen, h.restore (h.marks m (List.mem_of_getElem? hm))⟩

theorem foldl (h : Inv input seen s) (calls : List Call) :
    ∃ seen', Inv input seen' (calls.foldl Session.step s) := by
  induction calls generalizing seen s with
  | nil => exact ⟨seen, h⟩
  | cons call calls ih =>
    obtain ⟨seen', h'⟩ := h.step call
    exact ih h'

/-- What was seen are the tokens of the text that were handed out. -/
theorem seen_eq (h : Inv input seen s) :
    seen = (Filter.tokenize input).filter fun t => t ∈ s.handed := by
  obtain ⟨rest, hrest⟩ := h.logged.front
  have hnodup := tokens_nodup input
  rw [← hrest, List.nodup_append] at hnodup
  have hseen : seen.filter (fun t => t ∈ s.handed) = seen :=
    List.filter_eq_self.2 fun t ht => decide_eq_true ((h.handed t).2 ht)
  have hnew : rest.filter (fun t => t ∈ s.handed) = [] := by
    refine List.filter_eq_nil_iff.2 fun t ht hmem => ?_
    exact hnodup.2.2 t ((h.handed t).1 (of_decide_eq_true hmem)) t ht rfl
  rw [← hrest, List.filter_append, hseen, hnew, List.append_nil]

theorem reports_length (h : Inv input seen s) :
    s.lexer.reports.length = (s.handed.filter fun t => t.kind.isIllegal).dedup.length := by
  have hnodup : seen.Nodup := (tokens_nodup input).sublist h.logged.front.sublist
  have hperm : (s.handed.filter fun t => t.kind.isIllegal).dedup.Perm
      (seen.filter fun t => t.kind.isIllegal) := by
    refine (List.perm_ext_iff_of_nodup (List.nodup_dedup _) (hnodup.filter _)).2 fun t => ?_
    rw [List.mem_dedup, List.mem_filter, List.mem_filter, h.handed]
  rw [hperm.length_eq, h.logged.reports, List.length_filterMap_eq_countP,
    List.countP_eq_length_filter]
  simp only [isSome_report?]

theorem reports_pairwise (h : Inv input seen s) :
    s.lexer.reports.Pairwise fun a b => a.pos.offset < b.pos.offset := by
  rw [h.logged.reports, List.pairwise_filterMap]
  refine ((tokens_pairwise input).sublist h.logged.front.sublist).imp ?_
  intro a b hlt r hr r' hr'
  rwa [pos_of_report? hr, pos_of_report? hr']

end Inv

/-- Whatever was called, the lexer hands out the token of the text that starts where it stands, goes
behind it where it is asked to and back to where it was told to; and it has reported the illegal
tokens among those handed out, each once and in the order of the text. -/
theorem run_follows (input : String) (calls : List Call) :
    let s := run input calls
    let tokens := (ofString input).tokenize
    (∃ t, tokens.find? (fun t => t.pos = s.lexer.position) = some t ∧
      (s.lexer.scan.1 = t ∧ s.lexer.scan.2.position = t.next) ∧
      ∀ consume, (s.lexer.peek consume).1 = t ∧ (s.lexer.peek consume).2.position =
        if consume t = true then t.next else s.lexer.position) ∧
    (s.lexer.mark.position = s.lexer.position ∧
      ∀ m ∈ s.marks, (s.lexer.restore m).position = m.position) ∧
    s.lexer.errorCount = s.lexer.reports.length ∧
    s.lexer.errorCount = (s.handed.filter fun t => t.kind.isIllegal).dedup.length ∧
    s.lexer.reports = (tokens.filter fun t => t ∈ s.handed).filterMap report? ∧
    s.lexer.reports.Pairwise fun a b => a.pos.offset < b.pos.offset := by
  intro s tokens
  obtain ⟨seen, hinv⟩ := (Inv.start input).foldl calls
  change Inv input seen s at hinv
  have htokens : tokens = Filter.tokenize input := tokenize_ofString input
  refine ⟨⟨s.lexer.mark.ahead.1, ?_, ?_, fun consume => ?_⟩, ⟨rfl, fun m _ => rfl⟩,
    hinv.logged.count, hinv.logged.count.trans hinv.reports_length, ?_, hinv.reports_pairwise⟩
  · rw [htokens]
    exact hinv.front.find?
  · rw [scan_eq]
    exact ⟨rfl, rfl⟩
  · rw [peek_eq]
    refine ⟨rfl, ?_⟩
    split
    · rfl
    · exact congrArg Mark.position s.lexer.mark_look
  · rw [htokens, hinv.logged.reports]
    exact congrArg _ hinv.seen_eq

end Session

end Lexer

end ListQuery.Filter
