/-
How the classes of characters lie to each other. No character of a word is a blank, and none that
starts a word is a digit. So where words and blanks follow each other the text alone says where each
of them ends (`run_append`).
-/
import Mathlib.Data.List.TakeWhile
import ListQuery.Text.CharClass

namespace ListQuery.Text

/-- What holds of the first 128 characters, tried one by one. -/
theorem forall_ascii {P : Char → Prop} (h : ∀ n < 128, P (Char.ofNat n)) {c : Char}
    (hc : c.toNat < 128) : P c := by
  have hp := h c.toNat hc
  rwa [Char.ofNat_toNat] at hp

/-- No range of one table meets a range of the other. -/
def apart (xs ys : List (Nat × Nat)) : Bool :=
  xs.all fun x => ys.all fun y => decide (x.2 < y.1) || decide (y.2 < x.1)

theorem inRanges_eq_false {xs ys : List (Nat × Nat)} (h : apart xs ys = true) {c : Char}
    (hc : inRanges xs c = true) : inRanges ys c = false := by
  simp only [inRanges, List.any_eq_true, Bool.and_eq_true, decide_eq_true_eq] at hc
  obtain ⟨x, hx, hlow, hhigh⟩ := hc
  simp only [apart, List.all_eq_true, Bool.or_eq_true, decide_eq_true_eq] at h
  simp only [inRanges, List.any_eq_false, Bool.and_eq_true, decide_eq_true_eq, not_and]
  intro y hy hle
  have hapart := h x hx y hy
  omega

theorem white_apart_alphabetic : apart whiteRanges alphabeticRanges = true := by decide +kernel

theorem white_apart_numeric : apart whiteRanges numericRanges = true := by decide +kernel

theorem isWordChar_of_isWhite {c : Char} (h : isWhite c = true) : isWordChar c = false := by
  by_cases hascii : c.toNat < 128
  · have hall : ∀ n < 128, isWhite (Char.ofNat n) = true → isWordChar (Char.ofNat n) = false := by
      decide
    exact forall_ascii (P := fun c => isWhite c = true → isWordChar c = false) hall hascii h
  · have hwhite : inRanges whiteRanges c = true := by simpa [isWhite, hascii] using h
    have hunderscore : c ≠ '_' := by
      rintro rfl
      exact hascii (by decide)
    simp [isWordChar, isAlphanumeric, isAlphabetic, isNumeric, hascii, hunderscore,
      inRanges_eq_false white_apart_alphabetic hwhite,
      inRanges_eq_false white_apart_numeric hwhite]

theorem isWhite_of_isWordChar {c : Char} (h : isWordChar c = true) : isWhite c = false := by
  cases hw : isWhite c with
  | false => rfl
  | true =>
    rw [isWordChar_of_isWhite hw] at h
    cases h

theorem isWordChar_of_isAlpha {c : Char} (h : c.isAlpha = true) : isWordChar c = true := by
  have hascii : c.toNat < 128 := by
    rcases Bool.or_eq_true_iff.1 h with h | h
    · have hle : c.toNat ≤ 90 := UInt32.le_iff_toNat_le.1 (of_decide_eq_true h).2
      omega
    · obtain ⟨-, hz⟩ := Bool.and_eq_true_iff.1 h
      have hle : c.toNat ≤ 122 := UInt32.le_iff_toNat_le.1 (of_decide_eq_true hz)
      omega
  simp [isWordChar, isAlphanumeric, isAlphabetic, hascii, h]

/-- No digit starts a word. -/
theorem isDigit_of_isWordStart {c : Char} (h : isWordStart c = true) : c.isDigit = false := by
  by_cases hascii : c.toNat < 128
  · have hall : ∀ n < 128, isWordStart (Char.ofNat n) = true → (Char.ofNat n).isDigit = false := by
      decide
    exact forall_ascii (P := fun c => isWordStart c = true → c.isDigit = false) hall hascii h
  · cases hd : c.isDigit with
    | false => rfl
    | true =>
      simp only [Char.isDigit, Bool.and_eq_true, decide_eq_true_eq] at hd
      have hle : c.toNat ≤ 57 := UInt32.le_iff_toNat_le.1 hd.2
      omega

variable {p : Char → Bool} {w r : List Char}

theorem dropWhile_eq_self (h : ∀ c ∈ r.head?, p c = false) : r.dropWhile p = r := by
  cases r with
  | nil => rfl
  | cons c r => rw [List.dropWhile_cons_of_neg (by simp [h c (by simp)])]

theorem takeWhile_eq_nil (h : ∀ c ∈ r.head?, p c = false) : r.takeWhile p = [] := by
  cases r with
  | nil => rfl
  | cons c r => rw [List.takeWhile_cons_of_neg (by simp [h c (by simp)])]

/-- A run of characters of a class ends where a text starts that goes on with none. -/
theorem run_append (hw : ∀ c ∈ w, p c = true) (hr : ∀ c ∈ r.head?, p c = false) :
    (w ++ r).takeWhile p = w ∧ (w ++ r).dropWhile p = r := by
  rw [List.takeWhile_append_of_pos hw, takeWhile_eq_nil hr, List.append_nil,
    List.dropWhile_append_of_pos hw, dropWhile_eq_self hr]
  exact ⟨rfl, rfl⟩

theorem head_dropWhile (p : Char → Bool) (cs : List Char) :
    ∀ c ∈ (cs.dropWhile p).head?, p c = false := by
  intro c hc
  have hnot := List.head?_dropWhile_not p cs
  rw [Option.mem_def.1 hc] at hnot
  simpa using hnot

end ListQuery.Text
