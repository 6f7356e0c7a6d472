/-
A closing parenthesis put behind a text cuts nothing in it anew: the text is cut into the pieces it
had, and the parenthesis is one more (`Piece.Cut.concat_rightParen`). Every legal token reads the
same before a text and before that text with the parenthesis behind it.
-/
import ListQuery.Proofs.Token.Seam

namespace ListQuery.Filter

open Text Time

namespace Lexeme

theorem not_startsWord_radix {kind k : Kind} {p : Char → Bool} {cs r : List Char}
    (h : radix kind p cs = (k, r)) (hk : k.isIllegal = false) : startsWord r = false := by
  unfold radix at h
  split at h
  · simp only at h
    split at h
    · exact (not_illegal h hk).elim
    · rename_i hw
      cases h
      simpa using hw
  · exact (not_illegal h hk).elim

theorem not_startsWord_timestamp {year : Nat} {k : Kind} {cs r : List Char}
    (h : timestamp year cs = (k, r)) (hk : k.isIllegal = false) : startsWord r = false := by
  unfold timestamp at h
  split at h
  · split at h
    · exact (not_illegal h hk).elim
    · rename_i hw
      cases h
      simpa using hw
  · exact (not_illegal h hk).elim

theorem not_startsWord_duration {previous : Option TimeUnit} {fractional : Bool} {unit : TimeUnit}
    {here rest r : List Char} {k : Kind} (h : duration previous fractional unit here rest = (k, r))
    (hk : k.isIllegal = false) : startsWord r = false := by
  fun_induction duration previous fractional unit here rest with
  | case1 => exact (not_illegal h hk).elim
  | case2 => exact (not_illegal h hk).elim
  | case3 =>
    cases h
    rfl
  | case4 _ _ _ _ _ _ _ _ _ _ _ _ ih => exact ih h
  | case5 => exact (not_illegal h hk).elim
  | case6 => exact (not_illegal h hk).elim
  | case7 _ _ _ _ _ _ c cs _ hw =>
    cases h
    simpa [startsWord] using hw

theorem not_startsWord_decimal {digits rest r : List Char} {k : Kind}
    (h : decimal digits rest = (k, r)) (hk : k.isIllegal = false) : startsWord r = false := by
  simp only [decimal] at h
  split at h
  · split at h
    · exact (not_illegal h hk).elim
    · exact not_startsWord_duration h hk
  · split at h
    · exact (not_illegal h hk).elim
    · rename_i hw
      rw [← (Prod.mk.inj h).2]
      simpa using hw

theorem not_startsWord_number {negative : Bool} {d : Char} {cs r : List Char} {k : Kind}
    (h : number negative d cs = (k, r)) (hk : k.isIllegal = false) : startsWord r = false := by
  unfold number at h
  split at h
  case h_5 =>
    simp only at h
    split at h
    · split at h
      · exact not_startsWord_timestamp h hk
      · exact not_startsWord_decimal h hk
    · exact not_startsWord_decimal h hk
  all_goals exact not_startsWord_radix h hk

/-! ## One more character -/

theorem dropWhile_concat {p : Char → Bool} {x : Char} (hx : p x = false) (cs : List Char) :
    (cs ++ [x]).dropWhile p = cs.dropWhile p ++ [x] := by
  induction cs with
  | nil => simp [hx]
  | cons c cs ih =>
    by_cases hc : p c = true
    · simpa [hc] using ih
    · simp [hc]

theorem startsWord_concat (r : List Char) : startsWord (r ++ [')']) = startsWord r := by
  cases r with
  | nil => decide
  | cons c r => rfl

theorem closes_concat {r : List Char} (h : startsWord r = false) : Closes r (r ++ [')']) := by
  refine ⟨by rw [startsWord_concat, h], ?_, ?_⟩
  · cases r with
    | nil => simp
    | cons c r => simp
  · rcases r with _ | ⟨c, _ | ⟨d, r⟩⟩
    · simp [fraction?]
    · intro hf
      unfold fraction? at hf
      split at hf
      · rename_i he
        cases he
        cases hf
      · cases hf
    · intro hf
      by_cases hc : c = '.'
      · subst hc
        cases hd : d.isDigit with
        | true => simp [fraction?, hd]
        | false => simp [fraction?, hd] at hf
      · simp [fraction?, hc] at hf

theorem symbol_concat {c : Char} {cs r : List Char} {k : Kind} (h : symbol c cs = (k, r))
    (hk : k.isIllegal = false) : symbol c (cs ++ [')']) = (k, r ++ [')']) := by
  unfold symbol at h
  split at h
  case h_17 =>
    rw [← (Prod.mk.inj h).1] at hk
    cases hk
  case h_13 hne =>
    cases h
    cases cs with
    | nil => rfl
    | cons d cs =>
      unfold symbol
      split <;> simp_all
  case h_15 hne =>
    cases h
    cases cs with
    | nil => rfl
    | cons d cs =>
      unfold symbol
      split <;> simp_all
  all_goals
    cases h
    rfl

end Lexeme

open Lexeme in
/-- A legal token reads the same with a closing parenthesis at the end of the text. -/
theorem lexeme_concat {c : Char} {cs r : List Char} {k : Kind} (h : lexeme c cs = (k, r))
    (hk : k.isIllegal = false) : lexeme c (cs ++ [')']) = (k, r ++ [')']) := by
  have hnumber : ∀ {negative d cs}, number negative d cs = (k, r) →
      number negative d (cs ++ [')']) = (k, r ++ [')']) := by
    intro negative d cs h
    obtain ⟨y, rfl, hy⟩ := number_local h hk
    rw [List.append_assoc]
    exact hy _ (closes_concat (not_startsWord_number h hk))
  simp only [lexeme] at h ⊢
  split at h
  · rename_i hwhite
    obtain ⟨rfl, rfl⟩ := Prod.mk.inj h
    rw [if_pos hwhite, dropWhile_concat (by decide)]
  rename_i hwhite
  rw [if_neg hwhite]
  split at h
  · rename_i hd
    rw [if_pos hd]
    exact hnumber h
  rename_i hd
  rw [if_neg hd]
  split at h
  · rename_i hdash
    rw [if_pos hdash]
    cases cs with
    | nil =>
      cases h
      rfl
    | cons d cs =>
      simp only [dash, List.cons_append] at h ⊢
      split at h
      · rename_i hdd
        rw [if_pos hdd]
        exact hnumber h
      · rename_i hdd
        rw [if_neg hdd]
        exact symbol_concat h hk
  rename_i hdash
  rw [if_neg hdash]
  split at h
  · rename_i hq
    rw [if_pos hq]
    obtain ⟨y, rfl, hy⟩ := string_local h hk
    rw [List.append_assoc]
    exact hy _
  rename_i hq
  rw [if_neg hq]
  split at h
  · rename_i hw
    rw [if_pos hw]
    obtain ⟨y, hy, hlocal⟩ := word_local h
    have hr : startsWord r = false := by
      rw [← (Prod.mk.inj h).2]
      have hhead := List.head?_dropWhile_not isWordChar cs
      cases hcs : cs.dropWhile isWordChar with
      | nil => rfl
      | cons d t =>
        rw [hcs] at hhead
        simpa [startsWord] using hhead
    rw [hy, List.append_assoc]
    exact hlocal _ (by rw [startsWord_concat, hr])
  · rename_i hw
    rw [if_neg hw]
    exact symbol_concat h hk

namespace Piece

theorem Lexes.concat_rightParen {p : Piece} {r : List Char} (h : p.Lexes r)
    (hk : p.kind.isIllegal = false) : p.Lexes (r ++ [')']) := by
  obtain ⟨c, cs, ht, hl⟩ := h
  refine ⟨c, cs, ht, ?_⟩
  rw [← List.append_assoc]
  exact lexeme_concat hl hk

/-- The pieces of a text are its pieces before a closing parenthesis too. -/
theorem Cut.concat_rightParen : ∀ {ps : List Piece}, Cut ps →
    (∀ p ∈ ps, p.kind.isIllegal = false) → Cut (ps ++ [⟨.rightParen, ")"⟩])
  | [], _, _ => ⟨lexes_rightParen _, trivial⟩
  | p :: ps, h, hl => by
    have hp : p.Lexes (chars ps ++ [')']) := h.head.concat_rightParen (hl p (by simp))
    refine ⟨?_, Cut.concat_rightParen h.2 fun q hq => hl q (by simp [hq])⟩
    simpa using hp

end Piece

end ListQuery.Filter
