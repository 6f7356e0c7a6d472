/-
The length of a written duration, worked out in signed words of 128 bits while the text is read
(`parseWords`). Some operations are checked and refuse a result that does not fit. The others rely
on their operands: the length of a fraction, the sign of the total, and its split into seconds and
nanoseconds.

`parseWords_eq`: none of the others ever leaves the range, and checks refuse only what is out of
range for a duration anyway. The total never gets smaller, so a check on the way to it that fails
would fail at the end too (`checked_bind`).
-/
import ListQuery.Number.Word
import ListQuery.Proofs.Text.Digits
import ListQuery.Proofs.Time.Written

namespace ListQuery.Time.Duration

open Text Number

/-- Why a calculation in words gives no number. -/
inductive Halt where
  /-- The text is no duration, or a checked operation left the range. -/
  | refused
  /-- An operation that is not checked left the range. -/
  | overflow
deriving DecidableEq, Repr

/-- An outcome that is there or refused. -/
def orRefused {α : Type} : Option α → Except Halt α
  | some a => .ok a
  | none => .error .refused

/-- Whether a number fits a signed word of 128 bits. -/
def Fits (n : Int) : Prop := -(Word.maxInt128 : Int) - 1 ≤ n ∧ n ≤ Word.maxInt128

instance (n : Int) : Decidable (Fits n) := by unfold Fits; infer_instance

/-- The result of an operation that refuses what does not fit. -/
def checked (n : Int) : Except Halt Int :=
  if Fits n then .ok n else .error .refused

/-- The result of an operation that relies on its operands. -/
def unchecked (n : Int) : Except Halt Int :=
  if Fits n then .ok n else .error .overflow

/-- A quotient, rounded toward zero. -/
def quotient (a b : Int) : Except Halt Int :=
  if b = 0 then .error .overflow else unchecked (a.tdiv b)

/-- The length of a component's fraction. The digits are read and the scale is raised with checks,
the product and the quotient have none. -/
def Component.partWords (c : Component) : Except Halt Int := do
  let digits := c.fraction.take fractionDigits
  let numerator ← checked (ofDigits 10 digits)
  let scale ← checked (Nat.pow 10 digits.length)
  let product ← unchecked (numerator * c.unit.nanos)
  quotient product scale

/-- The total after one more component. -/
def Component.add (c : Component) (total : Int) : Except Halt Int := do
  let whole ← checked (ofDigits 10 c.whole)
  let length ← checked (whole * c.unit.nanos)
  let total ← checked (total + length)
  if c.fraction.isEmpty then pure total
  else
    let part ← c.partWords
    checked (total + part)

/-- The total of all components of a text, added up while they are read. -/
def totalWords (total : Int) (previous : Option TimeUnit) (cs : List Char) : Except Halt Int :=
  match cs with
  | [] => .ok total
  | c :: cs =>
    match _h : component? (c :: cs) with
    | none => .error .refused
    | some (first, rest) =>
      if previous.all first.follows then
        (first.add total).bind fun total => totalWords total (some first.unit) rest
      else .error .refused
termination_by cs.length
decreasing_by exact length_of_component? _h

/-- A number that has to fit a signed word of 64 bits. -/
def word64 (n : Int) : Except Halt Int :=
  if Word.minInt64 ≤ n ∧ n ≤ Word.maxInt64 then .ok n else .error .refused

/-- The duration of a total: whole seconds in a word of 64 bits, and the nanoseconds left in an
unsigned word of 32 bits, to which they are cut without a check. -/
def ofTotal (total : Int) : Except Halt Duration := do
  let whole ← unchecked (total / nanosPerSecond)
  let whole ← word64 whole
  let left ← unchecked (total % nanosPerSecond)
  orRefused (ofParts? whole (left % (Word.maxNat32 + 1)).toNat)

/-- The duration of a total under a sign. -/
def signedWords (negative : Bool) (total : Int) : Except Halt Duration :=
  if negative then (unchecked (-total)).bind ofTotal else ofTotal total

def unsignedWords (negative : Bool) (cs : List Char) : Except Halt Duration :=
  if cs.isEmpty then .error .refused
  else (totalWords 0 none cs).bind (signedWords negative)

/-- The duration that a text spells, worked out in words. -/
def parseWords (text : String) : Except Halt Duration :=
  match text.toList with
  | '-' :: cs => unsignedWords true cs
  | cs => unsignedWords false cs

theorem unit_bounds (u : TimeUnit) : 1 ≤ u.nanos ∧ u.nanos ≤ 3600000000000 := by
  cases u <;> decide

/-- The fraction's share of a component's length. -/
def Component.part (c : Component) : Nat :=
  ofDigits 10 (c.fraction.take fractionDigits) * c.unit.nanos /
    Nat.pow 10 (c.fraction.take fractionDigits).length

theorem Component.nanos_eq (c : Component) :
    c.nanos = ofDigits 10 c.whole * c.unit.nanos + c.part := rfl

theorem Component.numerator_lt {c : Component} (h : ∀ d ∈ c.fraction, d.isDigit = true) :
    ofDigits 10 (c.fraction.take fractionDigits) <
      Nat.pow 10 (c.fraction.take fractionDigits).length :=
  ofDigits_lt fun d hd => h d (List.mem_of_mem_take hd)

/-- A fraction is less than one unit. -/
theorem Component.part_lt {c : Component} (h : ∀ d ∈ c.fraction, d.isDigit = true) :
    c.part < c.unit.nanos := by
  have hlt := numerator_lt h
  refine Nat.div_lt_of_lt_mul ?_
  exact Nat.mul_lt_mul_of_pos_right hlt (unit_bounds c.unit).1

theorem Component.nanos_le {c : Component} (h : ∀ d ∈ c.fraction, d.isDigit = true) :
    c.nanos ≤ (ofDigits 10 c.whole + 1) * c.unit.nanos := by
  have hpart := c.part_lt h
  rw [c.nanos_eq, Nat.add_mul, Nat.one_mul]
  omega

/-! ## No operation overflows -/

theorem fits_natCast {n : Nat} : Fits n ↔ n ≤ Word.maxInt128 := by
  unfold Fits
  omega

theorem checked_of_le {n : Nat} (h : n ≤ Word.maxInt128) : checked n = .ok (n : Int) :=
  if_pos (fits_natCast.2 h)

theorem unchecked_of_le {n : Int} (h : n.natAbs ≤ Word.maxInt128) : unchecked n = .ok n :=
  if_pos ⟨by omega, by omega⟩

/-- A check on the way to a larger number does not change whether that number is refused. -/
theorem checked_bind {n m : Nat} (h : n ≤ m) {f : Int → Except Halt Int} (hf : f n = checked m) :
    checked n >>= f = checked m := by
  by_cases hn : n ≤ Word.maxInt128
  · rw [checked_of_le hn]
    exact hf
  · have hm : ¬ m ≤ Word.maxInt128 := by omega
    rw [checked, if_neg (by rwa [fits_natCast]), checked, if_neg (by rwa [fits_natCast])]
    rfl

/-- Eighteen digits of a fraction leave room for the length of an hour. -/
theorem Component.partWords_eq {c : Component} (h : ∀ d ∈ c.fraction, d.isDigit = true) :
    c.partWords = .ok (c.part : Int) := by
  have hlen : (c.fraction.take fractionDigits).length ≤ 18 := List.length_take_le _ _
  have hlt := numerator_lt h
  have hscale : Nat.pow 10 (c.fraction.take fractionDigits).length ≤ 1000000000000000000 :=
    Nat.pow_le_pow_right (by decide) hlen
  have hu := unit_bounds c.unit
  have hpart := c.part_lt h
  simp only [Component.part, Component.partWords] at hpart ⊢
  generalize ofDigits 10 (c.fraction.take fractionDigits) = numerator at hlt hpart ⊢
  generalize Nat.pow 10 (c.fraction.take fractionDigits).length = scale at hlt hscale hpart ⊢
  have hproduct : numerator * c.unit.nanos ≤ 1000000000000000000 * 3600000000000 :=
    Nat.mul_le_mul (by omega) hu.2
  have hmax : 1000000000000000000 * 3600000000000 ≤ Word.maxInt128 := by decide
  have hself : numerator * c.unit.nanos / scale ≤ numerator * c.unit.nanos := Nat.div_le_self _ _
  have hquotient : quotient (numerator * c.unit.nanos : Nat) scale =
      .ok ((numerator * c.unit.nanos / scale : Nat) : Int) := by
    rw [quotient, if_neg (by omega), ← Int.ofNat_tdiv]
    exact unchecked_of_le (by rw [Int.natAbs_natCast]; omega)
  rw [checked_of_le (n := numerator) (by omega), checked_of_le (n := scale) (by omega)]
  show unchecked (numerator * c.unit.nanos : Nat) >>= (quotient · scale) = _
  rw [unchecked_of_le (by rw [Int.natAbs_natCast]; omega)]
  exact hquotient

/-- Adding a component in words is refused exactly when the total leaves the range. -/
theorem Component.add_eq {c : Component} (h : ∀ d ∈ c.fraction, d.isDigit = true) (total : Nat) :
    c.add total = checked (total + c.nanos : Nat) := by
  have hwhole : ofDigits 10 c.whole ≤ ofDigits 10 c.whole * c.unit.nanos :=
    Nat.le_mul_of_pos_right _ (unit_bounds c.unit).1
  have hnanos := c.nanos_eq
  unfold Component.add
  refine checked_bind (by omega) ?_
  refine checked_bind (n := ofDigits 10 c.whole * c.unit.nanos) (by omega) ?_
  by_cases hf : c.fraction.isEmpty = true
  · have hpart : c.part = 0 := by
      rw [Component.part, List.isEmpty_iff.1 hf]
      simp [ofDigits]
    simp only [hf, ↓reduceIte]
    rw [hnanos, hpart]
    exact bind_pure _
  · refine checked_bind (n := total + ofDigits 10 c.whole * c.unit.nanos) (by omega) ?_
    rw [if_neg hf, partWords_eq h, hnanos, ← Nat.add_assoc]
    rfl

theorem totalWords_cons {total : Int} {previous : Option TimeUnit} {a : Char} {t r : List Char}
    {c : Component} (h : component? (a :: t) = some (c, r)) :
    totalWords total previous (a :: t) =
      if previous.all c.follows then
        (c.add total).bind fun total => totalWords total (some c.unit) r
      else .error .refused := by
  rw [totalWords]
  split
  · rename_i hnone
    rw [h] at hnone
    cases hnone
  · rename_i hsome
    rw [h] at hsome
    cases hsome
    rfl

theorem checked_of_lt {n : Nat} (h : Word.maxInt128 < n) : checked n = .error .refused :=
  if_neg (by rw [fits_natCast]; omega)

/-- Adding up while reading gives the total of the components that are read. -/
theorem totalWords_eq (total : Nat) (previous : Option TimeUnit) (cs : List Char)
    (htotal : total ≤ Word.maxInt128) :
    totalWords total previous cs =
      (orRefused (components? previous cs)).bind fun l => checked (total + totalNanos l : Nat) := by
  fun_induction components? previous cs generalizing total with
  | case1 previous =>
    rw [totalWords]
    simp only [orRefused, Except.bind, totalNanos, Nat.add_zero, checked_of_le htotal]
  | case2 previous c cs hnone =>
    rw [totalWords]
    split
    · rfl
    · rename_i hsome
      rw [hnone] at hsome
      cases hsome
  | case3 previous a t c r hc hfollows ih =>
    obtain ⟨w, hw, -⟩ := writes_of_component? hc
    have hadd := Component.add_eq hw.fraction_digits total
    rw [totalWords_cons hc, if_pos hfollows]
    by_cases hnext : total + c.nanos ≤ Word.maxInt128
    · rw [hadd.trans (checked_of_le hnext)]
      show totalWords (total + c.nanos : Nat) (some c.unit) r = _
      rw [ih _ hnext]
      cases components? (some c.unit) r with
      | none => simp only [orRefused, Except.bind, Option.map_none]
      | some l =>
        simp only [orRefused, Except.bind, Option.map_some, totalNanos, Nat.add_assoc]
    · rw [hadd.trans (checked_of_lt (by omega))]
      cases components? (some c.unit) r with
      | none => simp only [orRefused, Except.bind, Option.map_none]
      | some l =>
        have hlt : Word.maxInt128 < total + totalNanos (c :: l) := by
          rw [totalNanos]
          omega
        simp only [orRefused, Except.bind, Option.map_some, checked_of_lt hlt]
  | case4 previous a t c r hc hfollows =>
    rw [totalWords_cons hc, if_neg hfollows]
    rfl

theorem ofParts?_div_mod (n : Int) :
    ofParts? (n / nanosPerSecond) (n % nanosPerSecond % (Word.maxNat32 + 1)).toNat =
      ofNanos? n := by
  have hcut : (n % nanosPerSecond % (Word.maxNat32 + 1)).toNat = n % nanosPerSecond := by
    unfold nanosPerSecond Word.maxNat32
    omega
  have hlt : (n % nanosPerSecond % (Word.maxNat32 + 1)).toNat < nanosPerSecond := by
    unfold nanosPerSecond at hcut ⊢
    omega
  rw [ofParts?, if_pos hlt, hcut, Int.ediv_mul_add_emod]

/-- From a total that fits, the duration is there exactly when it is in range. -/
theorem ofTotal_eq {n : Int} (h : n.natAbs ≤ Word.maxInt128) :
    ofTotal n = orRefused (ofNanos? n) := by
  have hdiv : (n / nanosPerSecond).natAbs ≤ Word.maxInt128 := by
    unfold nanosPerSecond
    omega
  have hmod : (n % nanosPerSecond).natAbs ≤ Word.maxInt128 := by
    unfold nanosPerSecond Word.maxInt128
    omega
  have hparts := ofParts?_div_mod n
  by_cases hs : Word.minInt64 ≤ n / nanosPerSecond ∧ n / nanosPerSecond ≤ Word.maxInt64
  · simp only [ofTotal, unchecked_of_le hdiv, word64, if_pos hs, unchecked_of_le hmod, bind,
      Except.bind, hparts]
  · have hout : ¬ n.natAbs ≤ maxNanos := by
      unfold nanosPerSecond Word.minInt64 Word.maxInt64 at hs
      unfold maxNanos
      omega
    simp only [ofTotal, unchecked_of_le hdiv, word64, if_neg hs, bind, Except.bind, ofNanos?,
      dif_neg hout, orRefused]

theorem signedWords_eq {total : Nat} (h : total ≤ Word.maxInt128) (negative : Bool) :
    signedWords negative total =
      orRefused (ofNanos? (if negative then -(total : Int) else total)) := by
  cases negative with
  | false => exact ofTotal_eq (by rwa [Int.natAbs_natCast])
  | true =>
    have hneg : (-(total : Int)).natAbs ≤ Word.maxInt128 := by
      rwa [Int.natAbs_neg, Int.natAbs_natCast]
    simp only [signedWords, ↓reduceIte, unchecked_of_le hneg, Except.bind, ofTotal_eq hneg]

theorem ofNanos?_of_lt {total : Nat} (h : Word.maxInt128 < total) (negative : Bool) :
    ofNanos? (if negative then -(total : Int) else total) = none := by
  have hmax : maxNanos < Word.maxInt128 := by decide
  refine dif_neg ?_
  cases negative with
  | false => simpa using by omega
  | true => simpa using by omega

theorem unsigned?_of_components? {negative : Bool} {c : Char} {cs : List Char}
    {l : List Component} (h : components? none (c :: cs) = some l) :
    unsigned? negative (c :: cs) =
      ofNanos? (if negative then -(totalNanos l : Int) else totalNanos l) := by
  unfold unsigned?
  rw [h]
  split
  · rename_i he
    cases he
  · rename_i he
    -- a text that is not empty has a component
    cases he
    cases (components?_eq_some_iff.1 h).1
  · rename_i he
    cases he
    rfl

theorem unsignedWords_eq (negative : Bool) (cs : List Char) :
    unsignedWords negative cs = orRefused (unsigned? negative cs) := by
  cases cs with
  | nil => rw [unsignedWords, unsigned?, components?]; rfl
  | cons c cs =>
    have htotal := totalWords_eq 0 none (c :: cs) (by decide)
    simp only [Int.natCast_zero, Nat.zero_add] at htotal
    rw [unsignedWords, if_neg (by simp), htotal]
    cases hcomp : components? none (c :: cs) with
    | none =>
      rw [unsigned?, hcomp]
      rfl
    | some l =>
      rw [unsigned?_of_components? hcomp]
      simp only [orRefused, Except.bind]
      by_cases hfits : totalNanos l ≤ Word.maxInt128
      · simp only [checked_of_le hfits, signedWords_eq hfits, orRefused]
      · have hlt : Word.maxInt128 < totalNanos l := by omega
        simp only [checked_of_lt hlt, ofNanos?_of_lt hlt]

/-- The calculation in words gives what the calculation without bounds gives. -/
theorem parseWords_eq (text : String) : parseWords text = orRefused (parse? text) := by
  unfold parseWords parse?
  cases text.toList with
  | nil => exact unsignedWords_eq false []
  | cons c t =>
    by_cases hc : c = '-'
    · subst hc
      exact unsignedWords_eq true t
    · simp [hc, unsignedWords_eq]

end ListQuery.Time.Duration
