/-
What is left behind a token is an end of the text behind its first character (`lexeme_suffix`): a
token is never empty, and nothing is skipped. One lemma for each way to read a token.
-/
import ListQuery.Filter.Token.Lexeme

namespace ListQuery.Filter

open Text Time

namespace Lexeme

theorem illegal_suffix (fault : Fault) (cs : List Char) : (illegal fault cs).2 <:+ cs :=
  List.dropWhile_suffix _

theorem string_suffix (quote : Char) (cs : List Char) : (string quote cs).2 <:+ cs := by
  fun_induction string quote cs with
  | case1 => exact List.suffix_refl _
  | case2 => exact List.nil_suffix
  | case3 _ cs ih => exact (ih.trans (List.suffix_cons _ _)).trans (List.suffix_cons _ _)
  | case4 => exact List.suffix_cons _ _
  | case5 _ _ _ _ _ ih => exact ih.trans (List.suffix_cons _ _)

/-- The text that a run of a reader leaves. -/
def Reader.left {α : Type} (p : Reader α) (cs : List Char) : List Char :=
  match p cs with
  | .ok _ r => r
  | .error _ r => r

/-- A reader that only goes forward. -/
def Reader.Forward {α : Type} (p : Reader α) : Prop :=
  ∀ cs, p.left cs <:+ cs

namespace Reader

theorem Forward.pure {α : Type} (a : α) : Forward (Pure.pure a : Reader α) :=
  fun _ => List.suffix_refl _

theorem Forward.throw {α : Type} (f : Fault) : Forward (MonadExcept.throw f : Reader α) :=
  fun _ => List.suffix_refl _

theorem Forward.bind {α β : Type} {p : Reader α} {q : α → Reader β} (hp : p.Forward)
    (hq : ∀ a, (q a).Forward) : Forward (p >>= q) := by
  intro cs
  have h := hp cs
  simp only [left, Bind.bind, EStateM.bind] at h ⊢
  split at h
  · rename_i a r he
    simp only [he]
    exact (hq a r).trans h
  · rename_i f r he
    simp only [he]
    exact h

theorem expect_forward (accept : Char → Bool) (fault : Fault) : (expect accept fault).Forward := by
  intro cs
  rcases cs with _ | ⟨c, r⟩
  · exact List.suffix_refl _
  · simp only [left, expect]
    by_cases h : accept c = true
    · simp [h]
    · simp [h]

theorem twoDigits_forward (fault : Fault) : (twoDigits fault).Forward := by
  intro cs
  rcases cs with _ | ⟨a, _ | ⟨b, r⟩⟩
  · exact List.suffix_refl _
  · exact List.suffix_refl _
  · simp only [left, twoDigits]
    by_cases h : (a.isDigit && b.isDigit) = true
    · simpa [h] using (List.suffix_cons b r).trans (List.suffix_cons a _)
    · simp [h]

theorem ranged_forward (invalid outside : Fault) (low high : Nat) :
    (ranged invalid outside low high).Forward := by
  refine Forward.bind (twoDigits_forward _) fun n => ?_
  split
  · exact Forward.pure _
  · exact Forward.throw _

theorem fraction_forward : fraction.Forward := by
  intro cs
  simp only [left, fraction]
  rcases cs with _ | ⟨c, r⟩
  · exact List.suffix_refl _
  · by_cases h : c = '.'
    · subst h
      have : List.dropWhile Char.isDigit r <:+ '.' :: r :=
        (List.dropWhile_suffix _).trans (List.suffix_cons _ _)
      simp only
      split
      · rename_i he
        split at he <;> cases he
        exact this
      · rename_i he
        split at he <;> cases he
        exact this
    · simp [h]

theorem zone_forward : zone.Forward := by
  intro cs
  simp only [left, zone]
  rcases cs with _ | ⟨c, r⟩
  · exact List.suffix_refl _
  · simp only
    by_cases hz : c = 'Z' ∨ c = 'z'
    · simp only [hz, ↓reduceIte]
      exact List.suffix_cons _ _
    · simp only [hz, ↓reduceIte]
      by_cases hs : c = '+' ∨ c = '-'
      · simp only [hs, ↓reduceIte]
        refine List.IsSuffix.trans ?_ (List.suffix_cons c r)
        refine Forward.bind (ranged_forward _ _ _ _) (fun _ => ?_) r
        refine Forward.bind (expect_forward _ _) fun _ => ?_
        exact Forward.bind (ranged_forward _ _ _ _) fun _ => Forward.pure _
      · simp only [hs, ↓reduceIte]
        exact List.suffix_refl _

theorem afterYear_forward (year : Nat) : (afterYear year).Forward := by
  unfold afterYear
  refine Forward.bind (ranged_forward _ _ _ _) fun _ => ?_
  refine Forward.bind (expect_forward _ _) fun _ => ?_
  refine Forward.bind (ranged_forward _ _ _ _) fun _ => ?_
  refine Forward.bind (expect_forward _ _) fun _ => ?_
  refine Forward.bind (ranged_forward _ _ _ _) fun _ => ?_
  refine Forward.bind (expect_forward _ _) fun _ => ?_
  refine Forward.bind (ranged_forward _ _ _ _) fun _ => ?_
  refine Forward.bind (expect_forward _ _) fun _ => ?_
  refine Forward.bind (ranged_forward _ _ _ _) fun _ => ?_
  exact Forward.bind fraction_forward fun _ => zone_forward

end Reader

theorem timestamp_suffix (year : Nat) (cs : List Char) : (timestamp year cs).2 <:+ cs := by
  have h := Reader.afterYear_forward year cs
  simp only [Reader.left] at h
  simp only [timestamp]
  split
  · rename_i he
    simp only [he] at h
    split
    · exact (illegal_suffix _ _).trans h
    · exact h
  · rename_i he
    simp only [he] at h
    exact (illegal_suffix _ _).trans h

theorem duration_suffix (previous : Option TimeUnit) (fractional : Bool) (unit : TimeUnit)
    (here rest : List Char) (h : rest <:+ here) :
    (duration previous fractional unit here rest).2 <:+ here := by
  fun_induction duration previous fractional unit here rest with
  | case1 => exact illegal_suffix _ _
  | case2 => exact illegal_suffix _ _
  | case3 => exact List.nil_suffix
  | case4 _ _ _ _ _ _ c cs _ next after hu ih =>
    exact (ih (unit_suffix hu)).trans
      (((decimalEnd_suffix cs).trans (List.suffix_cons c cs)).trans h)
  | case5 _ _ _ _ _ _ c cs =>
    exact (illegal_suffix _ _).trans
      (((decimalEnd_suffix cs).trans (List.suffix_cons c cs)).trans h)
  | case6 => exact (illegal_suffix _ _).trans h
  | case7 => exact h

theorem radix_suffix (kind : Kind) (isDigit : Char → Bool) (cs : List Char) :
    (radix kind isDigit cs).2 <:+ cs := by
  unfold radix
  split
  · simp only
    split
    · exact (illegal_suffix _ _).trans (List.dropWhile_suffix _)
    · exact List.dropWhile_suffix _
  · exact illegal_suffix _ _

theorem getD_suffix {o : Option (List Char)} {cs : List Char} (h : ∀ r, o = some r → r <:+ cs) :
    o.getD cs <:+ cs := by
  cases o with
  | none => exact List.suffix_refl _
  | some r => exact h r rfl

theorem decimal_suffix (digits rest : List Char) : (decimal digits rest).2 <:+ rest := by
  have hf : (fraction? rest).getD rest <:+ rest := getD_suffix fun _ h => fraction?_suffix h
  have he : (exponent? ((fraction? rest).getD rest)).getD ((fraction? rest).getD rest) <:+ rest :=
    (getD_suffix fun _ h => exponent?_suffix h).trans hf
  simp only [decimal]
  split
  · rename_i hu
    split
    · exact (illegal_suffix _ _).trans he
    · exact (duration_suffix _ _ _ _ _ (unit_suffix hu)).trans he
  · split
    · exact (illegal_suffix _ _).trans he
    · exact he

theorem number_suffix (negative : Bool) (d : Char) (cs : List Char) :
    (number negative d cs).2 <:+ cs := by
  unfold number
  split
  · exact (radix_suffix _ _ _).trans (List.suffix_cons _ _)
  · exact (radix_suffix _ _ _).trans (List.suffix_cons _ _)
  · exact (radix_suffix _ _ _).trans (List.suffix_cons _ _)
  · exact (radix_suffix _ _ _).trans (List.suffix_cons _ _)
  · simp only
    have hd : cs.dropWhile Char.isDigit <:+ cs := List.dropWhile_suffix _
    split
    · rename_i he
      rw [he] at hd
      split
      · exact ((timestamp_suffix _ _).trans (List.suffix_cons _ _)).trans hd
      · exact (decimal_suffix _ _).trans hd
    · exact (decimal_suffix _ _).trans hd

theorem symbol_suffix (c : Char) (cs : List Char) : (symbol c cs).2 <:+ cs := by
  unfold symbol
  split
  case h_17 =>
    simp only
    split
    · exact List.dropWhile_suffix _
    · exact List.suffix_refl _
  all_goals first | exact List.suffix_refl _ | exact List.suffix_cons _ _

theorem dash_suffix (cs : List Char) : (dash cs).2 <:+ cs := by
  rcases cs with _ | ⟨d, cs⟩
  · exact symbol_suffix _ _
  · simp only [dash]
    split
    · exact (number_suffix _ _ _).trans (List.suffix_cons _ _)
    · exact symbol_suffix _ _

end Lexeme

open Lexeme in
/-- What is left behind a token is an end of the text behind its first character. -/
theorem lexeme_suffix (c : Char) (cs : List Char) : (lexeme c cs).2 <:+ cs := by
  unfold lexeme
  split
  · exact List.dropWhile_suffix _
  split
  · exact number_suffix _ _ _
  split
  · exact dash_suffix _
  split
  · exact string_suffix _ _
  split
  · exact List.dropWhile_suffix _
  · exact symbol_suffix _ _

end ListQuery.Filter
