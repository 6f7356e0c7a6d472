/-
What a number-like text is read as (`number_cases`), and when such a token takes a whole text
(`Piece.lexes_nil_iff`).

A duration is read twice: character by character when a text is cut into tokens, and component by
component when its length is worked out. The two readings stop at the same places and make the same
checks, so a text is cut as one duration exactly when it can be read as components
(`number_eq_duration_iff`). They part only at a point with no digit behind it. There a component
cannot be read, while the cut goes on at the point and finds no unit.
-/
import Mathlib.Data.List.TakeWhile
import ListQuery.Proofs.Time.Written
import ListQuery.Proofs.Token.Chain

namespace ListQuery.Filter

open Text Time

namespace Lexeme

/-- Where a fraction comes both readings take it. Where none comes, a point stops the reading of a
component, and cutting goes on at the point, which starts no unit. -/
theorem fraction?_both (x : List Char) :
    (∃ ds r, ds ≠ [] ∧ Duration.fraction? x = some (ds, r) ∧ fraction? x = some r) ∨
      (Duration.fraction? x = some ([], x) ∧ fraction? x = none) ∨
      (Duration.fraction? x = none ∧ fraction? x = none ∧ TimeUnit.read? x = none) := by
  rcases x with _ | ⟨c, t⟩
  · exact .inr (.inl ⟨rfl, rfl⟩)
  by_cases hc : c = '.'
  · subst hc
    rcases t with _ | ⟨d, t⟩
    · exact .inr (.inr ⟨rfl, rfl, rfl⟩)
    · cases hd : d.isDigit with
      | true =>
        refine .inl ⟨d :: t.takeWhile Char.isDigit, t.dropWhile Char.isDigit, by simp, ?_, ?_⟩
        · simp [Duration.fraction?, hd]
        · simp [fraction?, hd]
      | false =>
        refine .inr (.inr ⟨?_, ?_, rfl⟩)
        · simp [Duration.fraction?, hd]
        · simp [fraction?, hd]
  · exact .inr (.inl ⟨by simp [Duration.fraction?, hc], by simp [fraction?, hc]⟩)

/-- A component that starts with a digit, read part by part. -/
theorem component?_digit {d : Char} (hd : d.isDigit = true) (cs : List Char) :
    Duration.component? (d :: cs) =
      (Duration.fraction? (cs.dropWhile Char.isDigit)).bind fun f =>
        (TimeUnit.read? f.2).map fun u => (⟨d :: cs.takeWhile Char.isDigit, f.1, u.1⟩, u.2) := by
  rw [Duration.component?, List.takeWhile_cons_of_pos hd, List.dropWhile_cons_of_pos hd]
  cases Duration.fraction? (cs.dropWhile Char.isDigit) with
  | none => rfl
  | some f =>
    cases hu : TimeUnit.read? f.2 with
    | none => simp [hu]
    | some u => simp [hu]

theorem component?_of_unit {d : Char} (hd : d.isDigit = true) {cs r : List Char} {u : TimeUnit}
    (hu : TimeUnit.read? (decimalEnd cs).1 = some (u, r)) :
    ∃ c, Duration.component? (d :: cs) = some (c, r) ∧ c.unit = u ∧
      c.fraction.isEmpty = !(decimalEnd cs).2 := by
  rw [component?_digit hd]
  simp only [decimalEnd] at hu ⊢
  rcases fraction?_both (cs.dropWhile Char.isDigit) with
    ⟨ds, x, hne, hdur, hlex⟩ | ⟨hdur, hlex⟩ | ⟨-, hlex, hnone⟩
  · simp only [hlex] at hu
    simp only [hdur, hlex, Option.bind_some, hu, Option.map_some]
    exact ⟨_, rfl, rfl, by simpa using hne⟩
  · simp only [hlex] at hu
    simp only [hdur, hlex, Option.bind_some, hu, Option.map_some]
    exact ⟨_, rfl, rfl, rfl⟩
  · simp only [hlex, hnone] at hu
    cases hu

theorem component?_of_no_unit {d : Char} (hd : d.isDigit = true) {cs : List Char}
    (hu : TimeUnit.read? (decimalEnd cs).1 = none) : Duration.component? (d :: cs) = none := by
  rw [component?_digit hd]
  simp only [decimalEnd] at hu
  rcases fraction?_both (cs.dropWhile Char.isDigit) with
    ⟨ds, x, -, hdur, hlex⟩ | ⟨hdur, hlex⟩ | ⟨hdur, -, -⟩
  · simp only [hlex] at hu
    simp only [hdur, Option.bind_some, hu, Option.map_none]
  · simp only [hlex] at hu
    simp only [hdur, Option.bind_some, hu, Option.map_none]
  · simp only [hdur, Option.bind_none]

theorem component?_of_not_digit {c : Char} (hc : c.isDigit = false) (cs : List Char) :
    Duration.component? (c :: cs) = none := by
  simp [Duration.component?, hc]

theorem components?_eq_none {previous : Option TimeUnit} {c : Char} {cs : List Char}
    (h : Duration.component? (c :: cs) = none) :
    Duration.components? previous (c :: cs) = none := by
  rw [Duration.components?]
  split
  · rfl
  · rename_i hsome
    rw [h] at hsome
    cases hsome

theorem isSome_components?_cons {previous : Option TimeUnit} {a : Char} {t r : List Char}
    {c : Duration.Component} (h : Duration.component? (a :: t) = some (c, r)) :
    (Duration.components? previous (a :: t)).isSome = true ↔
      previous.all c.follows = true ∧ (Duration.components? (some c.unit) r).isSome = true := by
  rw [Duration.components?]
  split
  · rename_i hnone
    rw [h] at hnone
    cases hnone
  · rename_i hsome
    rw [h] at hsome
    cases hsome
    split <;> simp_all

/-- The two checks of a unit against the one before it, said as one. -/
theorem follows_iff_not_any {previous : Option TimeUnit} {fractional : Bool}
    {c : Duration.Component} (hc : c.fraction.isEmpty = !fractional) :
    previous.all c.follows = true ↔
      ¬ previous.any (fun p => decide (p.rank ≤ c.unit.rank)) = true ∧
        ¬ (fractional && previous.any TimeUnit.isSubsecond) = true := by
  cases previous with
  | none => simp
  | some p => cases fractional <;> simp [Duration.Component.follows, hc]

/-- From a unit on, a text is cut as the rest of a duration exactly when it can be read as the
components that follow. -/
theorem duration_eq_iff {previous : Option TimeUnit} {fractional : Bool} {unit : TimeUnit}
    {here rest : List Char} {c : Duration.Component} (hu : c.unit = unit)
    (hf : c.fraction.isEmpty = !fractional) :
    duration previous fractional unit here rest = (.duration, []) ↔
      previous.all c.follows = true ∧ (Duration.components? (some unit) rest).isSome = true := by
  rw [follows_iff_not_any hf, hu]
  fun_induction duration previous fractional unit here rest generalizing c with
  | case1 _ _ _ _ _ hp => simp [illegal, hp]
  | case2 _ _ _ _ _ _ hs => simp [illegal, hs]
  | case3 _ _ _ _ hp hs => simp [hp, hs, Duration.components?]
  | case4 previous fractional unit here hp hs a t ha next after hnext ih =>
    obtain ⟨first, hfirst, hunit, hempty⟩ := component?_of_unit ha hnext
    rw [ih hunit hempty, ← hunit, ← follows_iff_not_any hempty, isSome_components?_cons hfirst]
    simp [hp, hs]
  | case5 previous fractional unit here hp hs a t ha hnext =>
    simp [illegal, components?_eq_none (component?_of_no_unit ha hnext)]
  | case6 previous fractional unit here hp hs a t ha =>
    simp [illegal, components?_eq_none (component?_of_not_digit (by simpa using ha) t)]
  | case7 previous fractional unit here hp hs a t ha =>
    simp [components?_eq_none (component?_of_not_digit (by simpa using ha) t)]

/-! ## Numbers -/

/-- The digits at the front of a text. -/
theorem exists_digits (cs : List Char) :
    ∃ ds x, cs = ds ++ x ∧ (∀ c ∈ ds, c.isDigit = true) ∧ ∀ c ∈ x.head?, c.isDigit = false := by
  refine ⟨cs.takeWhile Char.isDigit, cs.dropWhile Char.isDigit,
    List.takeWhile_append_dropWhile.symm, List.all_eq_true.1 List.all_takeWhile,
    head_dropWhile _ _⟩

/-- What a number is read as: a literal in another base, a timestamp, or digits and what follows
them. -/
theorem number_cases (negative : Bool) (d : Char) (cs : List Char) :
    (∃ m t, d = '0' ∧ (m = 'x' ∨ m = 'X') ∧ cs = m :: t ∧
        number negative d cs = radix .hex isHexDigit t) ∨
      (∃ m t, d = '0' ∧ (m = 'o' ∨ m = 'O') ∧ cs = m :: t ∧
        number negative d cs = radix .oct isOctalDigit t) ∨
      (∃ ds t, cs = ds ++ '-' :: t ∧ (∀ c ∈ ds, c.isDigit = true) ∧ ds.length = 3 ∧
        negative = false ∧ number negative d cs = timestamp (ofDigits 10 (d :: ds)) t) ∨
      ∃ ds x, cs = ds ++ x ∧ (∀ c ∈ ds, c.isDigit = true) ∧ (∀ c ∈ x.head?, c.isDigit = false) ∧
        number negative d cs = decimal (d :: ds) x := by
  by_cases hm : d = '0' ∧ ∃ m ∈ cs.head?, isRadixMark m
  · obtain ⟨rfl, m, hm, hmark⟩ := hm
    obtain ⟨t, rfl⟩ := List.head?_eq_some_iff.1 hm
    rcases hmark with rfl | rfl | rfl | rfl
    · exact .inl ⟨'x', t, rfl, .inl rfl, rfl, rfl⟩
    · exact .inl ⟨'X', t, rfl, .inr rfl, rfl, rfl⟩
    · exact .inr (.inl ⟨'o', t, rfl, .inl rfl, rfl, rfl⟩)
    · exact .inr (.inl ⟨'O', t, rfl, .inr rfl, rfl, rfl⟩)
  obtain ⟨ds, x, rfl, hds, hx⟩ := exists_digits cs
  have hplain := @number_plain negative d ds x hds hx
    fun hd c hc hmark => hm ⟨hd, c, hc, hmark⟩
  split at hplain
  · rename_i hcond
    obtain ⟨hdash, hyear⟩ := hcond
    obtain ⟨t, rfl⟩ := List.head?_eq_some_iff.1 hdash
    simp only [Bool.and_eq_true, Bool.not_eq_true', List.length_cons, beq_iff_eq] at hyear
    exact .inr (.inr (.inl ⟨ds, t, rfl, hds, by omega, hyear.1, hplain⟩))
  · exact .inr (.inr (.inr ⟨ds, x, rfl, hds, hx, hplain⟩))

theorem decimalEnd_digits {ds x : List Char} (hds : ∀ c ∈ ds, c.isDigit = true)
    (hx : ∀ c ∈ x.head?, c.isDigit = false) :
    decimalEnd (ds ++ x) = ((fraction? x).getD x, (fraction? x).isSome) := by
  rw [decimalEnd, (run_append hds hx).2]
  cases fraction? x <;> rfl

/-- A literal in another base that takes the whole text. -/
theorem radix_eq_iff {kind k : Kind} (hk : k.isIllegal = false) {p : Char → Bool}
    {cs : List Char} :
    radix kind p cs = (k, []) ↔ k = kind ∧ cs ≠ [] ∧ ∀ c ∈ cs, p c = true := by
  constructor
  · intro h
    unfold radix at h
    split at h
    · rename_i hd
      simp only at h
      split at h
      · exact (not_illegal h hk).elim
      · obtain ⟨rfl, hr⟩ := Prod.mk.inj h
        refine ⟨rfl, by rintro rfl; simp at hd, ?_⟩
        simpa using List.dropWhile_eq_nil_iff.1 hr
    · exact (not_illegal h hk).elim
  · rintro ⟨rfl, hne, hall⟩
    have hhead : cs.head?.any p = true := by
      cases cs with
      | nil => exact absurd rfl hne
      | cons c t => simpa using hall c (by simp)
    have hdrop : cs.dropWhile p = [] := List.dropWhile_eq_nil_iff.2 (by simpa using hall)
    simp [radix, hhead, hdrop, startsWord]

theorem timestamp_kind {year : Nat} {cs r : List Char} {k : Kind}
    (h : timestamp year cs = (k, r)) (hk : k.isIllegal = false) : k = .timestamp := by
  unfold timestamp at h
  split at h
  · split at h
    · exact (not_illegal h hk).elim
    · exact (Prod.mk.inj h).1.symm
  · exact (not_illegal h hk).elim

theorem duration_kind {previous : Option TimeUnit} {fractional : Bool} {unit : TimeUnit}
    {here rest r : List Char} {k : Kind} (h : duration previous fractional unit here rest = (k, r))
    (hk : k.isIllegal = false) : k = .duration := by
  fun_induction duration previous fractional unit here rest with
  | case3 => exact (Prod.mk.inj h).1.symm
  | case4 _ _ _ _ _ _ _ _ _ _ _ _ ih => exact ih h
  | case7 => exact (Prod.mk.inj h).1.symm
  | _ => exact (not_illegal h hk).elim

/-- A text that starts with digits but no unit behind them is no duration. -/
theorem decimal_ne_duration {digits x : List Char}
    (hu : TimeUnit.read? ((fraction? x).getD x) = none) : decimal digits x ≠ (.duration, []) := by
  intro h
  simp only [decimal] at h
  cases he : exponent? ((fraction? x).getD x) with
  | none =>
    simp only [he, Option.getD_none, hu] at h
    split at h
    · cases h
    · split at h
      · cases h
      · have hk := (Prod.mk.inj h).1
        unfold runKind at hk
        split at hk <;> cases hk
  | some r =>
    simp only [he, Option.getD_some, Option.isSome_some, ↓reduceIte, Bool.or_true] at h
    split at h
    · cases h
    · split at h <;> cases h

theorem decimal_eq_duration_iff {d : Char} {ds x : List Char} (hd : d.isDigit = true)
    (hds : ∀ c ∈ ds, c.isDigit = true) (hx : ∀ c ∈ x.head?, c.isDigit = false) :
    decimal (d :: ds) x = (.duration, []) ↔
      (Duration.components? none (d :: (ds ++ x))).isSome = true := by
  have hend := decimalEnd_digits hds hx
  cases hu : TimeUnit.read? ((fraction? x).getD x) with
  | none =>
    have hread : TimeUnit.read? (decimalEnd (ds ++ x)).1 = none := by rw [hend]; exact hu
    have hnone := component?_of_no_unit hd hread
    simp [decimal_ne_duration hu, components?_eq_none hnone]
  | some ur =>
    obtain ⟨u, r⟩ := ur
    have hread : TimeUnit.read? (decimalEnd (ds ++ x)).1 = some (u, r) := by rw [hend]; exact hu
    obtain ⟨c, hc, hunit, hempty⟩ := component?_of_unit hd hread
    rw [hend] at hempty
    -- A unit does not start with the mark of an exponent.
    have hexp : exponent? ((fraction? x).getD x) = none := by
      obtain ⟨a, t, hat, -, h1, h2⟩ := head_of_unit hu
      rw [hat]
      exact exponent?_eq_none (by simp [h1, h2])
    have hdec : decimal (d :: ds) x =
        duration none (fraction? x).isSome u ((fraction? x).getD x) r := by
      simp [decimal, hexp, hu]
    rw [hdec, duration_eq_iff hunit hempty, isSome_components?_cons hc, hunit]

/-- No component has its number before a character that starts neither a fraction nor a unit. -/
theorem components?_digits_eq_none {d c : Char} (ds : List Char) {t : List Char}
    (hd : d.isDigit = true) (hds : ∀ c ∈ ds, c.isDigit = true) (hc : c.isDigit = false)
    (hp : c ≠ '.') (hu : TimeUnit.read? (c :: t) = none) :
    Duration.components? none (d :: (ds ++ c :: t)) = none := by
  have hf : fraction? (c :: t) = none := by simp [fraction?, hp]
  refine components?_eq_none (component?_of_no_unit hd ?_)
  rw [decimalEnd_digits hds (by simpa using hc), hf]
  exact hu

theorem components?_mark_eq_none {m : Char} (hm : isRadixMark m) (t : List Char) :
    Duration.components? none ('0' :: m :: t) = none := by
  rcases hm with rfl | rfl | rfl | rfl <;>
    exact components?_digits_eq_none [] (by decide) (by simp) (by decide) (by decide) rfl

/-- A text that starts with a digit is cut as one duration exactly when it can be read as
components. -/
theorem number_eq_duration_iff {negative : Bool} {d : Char} (hd : d.isDigit = true)
    (cs : List Char) :
    number negative d cs = (.duration, []) ↔
      (Duration.components? none (d :: cs)).isSome = true := by
  rcases number_cases negative d cs with
    ⟨m, t, rfl, hm, rfl, hn⟩ | ⟨m, t, rfl, hm, rfl, hn⟩ | ⟨ds, t, rfl, hds, -, -, hn⟩ |
      ⟨ds, x, rfl, hds, hx, hn⟩
  · rw [hn, radix_eq_iff rfl, components?_mark_eq_none (hm.imp_right .inl)]
    simp
  · rw [hn, radix_eq_iff rfl, components?_mark_eq_none (.inr (.inr hm))]
    simp
  · rw [hn, components?_digits_eq_none ds hd hds (by decide) (by decide) rfl]
    simp only [Option.isSome_none, Bool.false_eq_true, iff_false]
    intro h
    exact Kind.noConfusion (timestamp_kind h rfl)
  · rw [hn, decimal_eq_duration_iff hd hds hx]

/-- A text with or without a minus sign before it. -/
def signed (negative : Bool) (cs : List Char) : List Char :=
  if negative then '-' :: cs else cs

theorem lexeme_signed {negative : Bool} {d : Char} (hd : d.isDigit = true) {c : Char}
    {cs t : List Char} (h : signed negative (d :: t) = c :: cs) :
    lexeme c cs = number negative d t := by
  cases negative with
  | false =>
    cases h
    simp [lexeme, isWhite_of_isDigit hd, hd]
  | true =>
    cases h
    have hw : isWhite '-' = false := by decide
    have hdash : '-'.isDigit = false := by decide
    simp [lexeme, hw, hdash, dash, hd]

theorem string_not_isNumeral {quote : Char} {cs r : List Char} {k : Kind}
    (h : string quote cs = (k, r)) (hk : k.isIllegal = false) : k.isNumeral = false := by
  fun_induction string quote cs with
  | case1 => cases h; cases hk
  | case2 => cases h; cases hk
  | case3 _ _ ih => exact ih h
  | case4 => cases h; rfl
  | case5 _ _ _ _ _ ih => exact ih h

theorem wordKind_not_isNumeral (w : String) : (wordKind w).isNumeral = false := by
  unfold wordKind
  split <;> rfl

theorem symbol_not_isNumeral {c : Char} {cs r : List Char} {k : Kind} (h : symbol c cs = (k, r))
    (hk : k.isIllegal = false) : k.isNumeral = false := by
  unfold symbol at h
  split at h <;> cases h <;> first | rfl | cases hk

/-- Only what starts like a number has the kind of a number. -/
theorem number_of_lexeme {c : Char} {cs r : List Char} {k : Kind} (h : lexeme c cs = (k, r))
    (hn : k.isNumeral = true) (hk : k.isIllegal = false) :
    ∃ negative d t, c :: cs = signed negative (d :: t) ∧ d.isDigit = true ∧
      number negative d t = (k, r) := by
  simp only [lexeme] at h
  split at h
  · cases h
    cases hn
  split at h
  · rename_i hd
    exact ⟨false, c, cs, rfl, hd, h⟩
  split at h
  · rename_i hdash
    subst hdash
    cases cs with
    | nil =>
      have hsymbol : symbol '-' [] = (k, r) := h
      rw [symbol_not_isNumeral hsymbol hk] at hn
      cases hn
    | cons d t =>
      simp only [dash] at h
      split at h
      · rename_i hd
        exact ⟨true, d, t, rfl, hd, h⟩
      · rw [symbol_not_isNumeral h hk] at hn
        cases hn
  split at h
  · rw [string_not_isNumeral h hk] at hn
    cases hn
  split at h
  · rw [← (Prod.mk.inj h).1, wordKind_not_isNumeral] at hn
    cases hn
  · rw [symbol_not_isNumeral h hk] at hn
    cases hn

end Lexeme

open Lexeme

/-- A number-like token takes a whole text when the digits behind its sign are read to the end. -/
theorem Piece.lexes_nil_iff {k : Kind} (hn : k.isNumeral = true) (hk : k.isIllegal = false)
    {w : String} :
    Lexes ⟨k, w⟩ [] ↔ ∃ negative d t, w.toList = signed negative (d :: t) ∧ d.isDigit = true ∧
      number negative d t = (k, []) := by
  constructor
  · rintro ⟨c, cs, hw, hl⟩
    rw [List.append_nil] at hl
    obtain ⟨negative, d, t, ht, hd, hnum⟩ := number_of_lexeme hl hn hk
    exact ⟨negative, d, t, hw.trans ht, hd, hnum⟩
  · rintro ⟨negative, d, t, hw, hd, hnum⟩
    obtain ⟨c, cs, hc⟩ : ∃ c cs, signed negative (d :: t) = c :: cs := by
      cases negative with
      | false => exact ⟨d, t, rfl⟩
      | true => exact ⟨'-', d :: t, rfl⟩
    refine ⟨c, cs, hw.trans hc, ?_⟩
    rw [List.append_nil, lexeme_signed hd hc, hnum]

end ListQuery.Filter
