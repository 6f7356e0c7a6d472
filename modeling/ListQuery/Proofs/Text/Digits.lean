/-
Digits and the numbers they spell. The last digit weighs least, so digits are taken apart there:
digits behind others shift those (`ofDigits_append`), and written digits spell the number they were
written for (`ofDigits_toDigits`, `ofDigits_paddedDecimal`).
-/
import Mathlib.Data.List.Induction
import Mathlib.Data.Nat.Digits.Defs
import ListQuery.Text.Digits

namespace ListQuery.Text

theorem digitValue_le_nine {c : Char} (h : c.isDigit = true) : digitValue c ≤ 9 := by
  simp only [digitValue, h, ↓reduceIte]
  have h9 : c.toNat ≤ 57 := by
    simp only [Char.isDigit, Bool.and_eq_true, decide_eq_true_eq] at h
    exact UInt32.le_iff_toNat_le.1 h.2
  have h0 : '0'.toNat = 48 := rfl
  omega

theorem digitValue_digitChar {n : Nat} (h : n < 10) : digitValue n.digitChar = n := by
  have hd : n.digitChar.isDigit = true := by simpa [Nat.isDigit_digitChar] using h
  simp only [digitValue, hd, ↓reduceIte]
  exact Nat.toNat_digitChar_sub_48_of_lt_ten h

theorem ofDigits_concat (base : Nat) (ds : List Char) (d : Char) :
    ofDigits base (ds ++ [d]) = ofDigits base ds * base + digitValue d := by
  simp [ofDigits]

theorem ofDigits_append (base : Nat) (ds es : List Char) :
    ofDigits base (ds ++ es) = ofDigits base ds * base ^ es.length + ofDigits base es := by
  induction es using List.reverseRecOn with
  | nil => simp [ofDigits]
  | append_singleton es e ih =>
    rw [← List.append_assoc, ofDigits_concat, ofDigits_concat, ih, List.length_append,
      List.length_singleton, Nat.pow_succ, Nat.add_mul, Nat.mul_assoc, Nat.add_assoc]

theorem ofDigits_lt {ds : List Char} (h : ∀ d ∈ ds, d.isDigit = true) :
    ofDigits 10 ds < Nat.pow 10 ds.length := by
  induction ds using List.reverseRecOn with
  | nil => decide
  | append_singleton ds d ih =>
    have hd := digitValue_le_nine (h d (by simp))
    have hds := ih fun c hc => h c (by simp [hc])
    rw [ofDigits_concat, List.length_append, List.length_singleton]
    show _ < Nat.pow 10 ds.length * 10
    omega

theorem ofDigits_zeros (base k : Nat) : ofDigits base (List.replicate k '0') = 0 := by
  induction k with
  | zero => rfl
  | succ k ih =>
    rw [List.replicate_succ', ofDigits_concat, ih, Nat.zero_mul]
    rfl

/-- Zeros behind digits shift them. -/
theorem ofDigits_append_zeros (base : Nat) (ds : List Char) (k : Nat) :
    ofDigits base (ds ++ List.replicate k '0') = ofDigits base ds * base ^ k := by
  rw [ofDigits_append, List.length_replicate, ofDigits_zeros, Nat.add_zero]

theorem ofDigits_toDigits (n : Nat) : ofDigits 10 (Nat.toDigits 10 n) = n := by
  induction n using Nat.strongRecOn with
  | ind n ih =>
    rw [Nat.toDigits_eq_if (by decide)]
    split
    · rename_i hn
      rw [← List.nil_append [_], ofDigits_concat, digitValue_digitChar hn]
      simp [ofDigits]
    · rename_i hn
      rw [ofDigits_concat, ih (n / 10) (by omega), digitValue_digitChar (by omega)]
      omega

theorem isDigit_of_mem_decimal {n : Nat} {c : Char} (h : c ∈ (decimal n).toList) :
    c.isDigit = true := by
  rw [decimal, String.toList_ofList] at h
  exact Nat.isDigit_of_mem_toDigits (by decide) (by decide) h

theorem ofDigits_decimal (n : Nat) : ofDigits 10 (decimal n).toList = n := by
  rw [decimal, String.toList_ofList, ofDigits_toDigits]

theorem toDigits_ne_nil (n : Nat) : Nat.toDigits 10 n ≠ [] := by
  rw [Nat.toDigits_eq_if (by decide)]
  split <;> simp

theorem decimal_ne_nil (n : Nat) : (decimal n).toList ≠ [] := by
  rw [decimal, String.toList_ofList]
  exact toDigits_ne_nil n

/-- Only zero starts with a zero. -/
theorem head_toDigits {n : Nat} (h : (Nat.toDigits 10 n).head? = some '0') : n = 0 := by
  induction n using Nat.strongRecOn with
  | ind n ih =>
    rw [Nat.toDigits_eq_if (by decide)] at h
    split at h
    · rename_i hn
      have hzero := digitValue_digitChar hn
      rw [Option.some.inj h] at hzero
      exact hzero.symm
    · rename_i hn
      obtain ⟨c, t, ht⟩ := List.exists_cons_of_ne_nil (toDigits_ne_nil (n / 10))
      have hhead : (Nat.toDigits 10 (n / 10)).head? = some '0' := by
        rw [ht] at h ⊢
        exact h
      have hzero := ih (n / 10) (by omega) hhead
      omega

theorem toList_paddedDecimal (width n : Nat) : (paddedDecimal width n).toList =
    List.replicate (width - (Nat.toDigits 10 n).length) '0' ++ Nat.toDigits 10 n := by
  rw [paddedDecimal, String.toList_ofList]

theorem isDigit_of_mem_paddedDecimal {width n : Nat} {c : Char}
    (h : c ∈ (paddedDecimal width n).toList) : c.isDigit = true := by
  rw [toList_paddedDecimal, List.mem_append] at h
  rcases h with h | h
  · rw [List.eq_of_mem_replicate h]
    rfl
  · exact Nat.isDigit_of_mem_toDigits (by decide) (by decide) h

theorem ofDigits_paddedDecimal (width n : Nat) :
    ofDigits 10 (paddedDecimal width n).toList = n := by
  rw [toList_paddedDecimal, ofDigits_append, ofDigits_zeros, Nat.zero_mul, Nat.zero_add,
    ofDigits_toDigits]

/-- A number that fits is padded to just the width. -/
theorem length_paddedDecimal {width n : Nat} (hw : 0 < width) (h : n < 10 ^ width) :
    (paddedDecimal width n).toList.length = width := by
  have hlen := Nat.toDigits_length 10 n width hw h
  rw [toList_paddedDecimal, List.length_append, List.length_replicate]
  omega

end ListQuery.Text
