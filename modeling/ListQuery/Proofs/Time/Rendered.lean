/-
The text that a duration is rendered as. It is written with one component of seconds, whose length
is that of the duration, so it is cut into one duration token (`tokenize_render`) and read as the
duration itself (`parse?_render`).
-/
import Mathlib.Data.List.DropRight
import ListQuery.Proofs.Text.Digits
import ListQuery.Proofs.Time.Agree

namespace ListQuery.Time.Duration

open Text ListQuery.Filter ListQuery.Filter.Lexeme

theorem trimZeros_eq (ds : List Char) : trimZeros ds = ds.rdropWhile (· == '0') := rfl

/-- The zeros that were taken away make the digits whole again. -/
theorem exists_trimZeros (ds : List Char) : ∃ k, ds = trimZeros ds ++ List.replicate k '0' := by
  refine ⟨(ds.rtakeWhile (· == '0')).length, ?_⟩
  have hzeros : ds.rtakeWhile (· == '0') =
      List.replicate (ds.rtakeWhile (· == '0')).length '0' :=
    List.eq_replicate_of_mem fun c hc => by simpa using List.mem_rtakeWhile_imp hc
  rw [← hzeros, trimZeros_eq, List.rdropWhile_append_rtakeWhile]

theorem isDigit_of_mem_trimZeros {ds : List Char} (h : ∀ d ∈ ds, d.isDigit = true) :
    ∀ d ∈ trimZeros ds, d.isDigit = true := by
  intro d hd
  obtain ⟨k, hk⟩ := exists_trimZeros ds
  exact h d (by rw [hk]; exact List.mem_append_left _ hd)

/-- As digits behind a point, digits mean the same without the zeros at their end. -/
theorem scale_trimZeros {ds : List Char} {n : Nat} (h : ds.length = n) :
    ofDigits 10 (trimZeros ds) * 10 ^ n / 10 ^ (trimZeros ds).length = ofDigits 10 ds := by
  obtain ⟨k, hk⟩ := exists_trimZeros ds
  have hlen : n = k + (trimZeros ds).length := by
    rw [← h, Nat.add_comm]
    nth_rewrite 1 [hk]
    rw [List.length_append, List.length_replicate]
  have hvalue : ofDigits 10 ds = ofDigits 10 (trimZeros ds) * 10 ^ k := by
    nth_rewrite 1 [hk]
    exact ofDigits_append_zeros 10 _ k
  rw [hvalue, hlen, Nat.pow_add, ← Nat.mul_assoc]
  exact Nat.mul_div_cancel _ (Nat.pow_pos (by decide))

/-! ## The component of seconds -/

/-- The digits behind the point of a rendered duration. -/
def fractionOf (nanos : Nat) : List Char := trimZeros (paddedDecimal 9 nanos).toList

theorem isDigit_of_mem_fractionOf (nanos : Nat) : ∀ d ∈ fractionOf nanos, d.isDigit = true :=
  isDigit_of_mem_trimZeros fun _ hd => isDigit_of_mem_paddedDecimal hd

theorem scale_fractionOf {nanos : Nat} (h : nanos < nanosPerSecond) :
    ofDigits 10 (fractionOf nanos) * nanosPerSecond / 10 ^ (fractionOf nanos).length = nanos := by
  have hlen := @length_paddedDecimal 9 nanos (by decide) h
  have hscale := scale_trimZeros hlen
  rwa [ofDigits_paddedDecimal] at hscale

theorem length_fractionOf {nanos : Nat} (h : nanos < nanosPerSecond) :
    (fractionOf nanos).length ≤ fractionDigits := by
  obtain ⟨k, hk⟩ := exists_trimZeros (paddedDecimal 9 nanos).toList
  have hlen := @length_paddedDecimal 9 nanos (by decide) h
  rw [hk, List.length_append] at hlen
  have hle : (trimZeros (paddedDecimal 9 nanos).toList).length ≤ 9 := by omega
  exact Nat.le_trans hle (by decide)

/-- There is a fraction just when it is not zero. -/
theorem fractionOf_eq_nil {nanos : Nat} (h : nanos < nanosPerSecond) :
    fractionOf nanos = [] ↔ nanos = 0 := by
  constructor
  · intro hnil
    have hscale := scale_fractionOf h
    rw [hnil] at hscale
    exact hscale.symm
  · rintro rfl
    decide

/-- The only component of a rendered duration. -/
def secondsOf (total : Nat) : Component :=
  ⟨(decimal (total / nanosPerSecond)).toList, fractionOf (total % nanosPerSecond), .second⟩

theorem nanos_secondsOf (total : Nat) : (secondsOf total).nanos = total := by
  have hlt : total % nanosPerSecond < nanosPerSecond := Nat.mod_lt _ (by decide)
  simp only [Component.nanos, secondsOf, ofDigits_decimal,
    List.take_of_length_le (length_fractionOf hlt)]
  show total / nanosPerSecond * nanosPerSecond +
    ofDigits 10 (fractionOf (total % nanosPerSecond)) * nanosPerSecond /
      10 ^ (fractionOf (total % nanosPerSecond)).length = total
  rw [scale_fractionOf hlt]
  exact Nat.div_add_mod' total nanosPerSecond

theorem writes_seconds {whole fraction : List Char} (hne : whole ≠ [])
    (hwhole : ∀ d ∈ whole, d.isDigit = true) (hfraction : ∀ d ∈ fraction, d.isDigit = true) :
    Component.Writes ⟨whole, fraction, .second⟩ (whole ++ (pointed fraction ++ "s".toList)) :=
  ⟨hne, hwhole, hfraction, "s", List.mem_singleton.2 rfl, rfl⟩

theorem toList_render (d : Duration) :
    d.render.toList = signed (decide (d.nanos < 0))
      ((decimal (d.nanos.natAbs / nanosPerSecond)).toList ++
        (pointed (fractionOf (d.nanos.natAbs % nanosPerSecond)) ++ "s".toList)) := by
  have hlt : d.nanos.natAbs % nanosPerSecond < nanosPerSecond := Nat.mod_lt _ (by decide)
  have hsign (w : List Char) : signed (decide (d.nanos < 0)) w =
      (if d.nanos < 0 then "-" else "").toList ++ w := by
    by_cases hneg : d.nanos < 0 <;> simp [signed, hneg]
  rw [hsign]
  unfold render
  dsimp only
  by_cases hzero : d.nanos.natAbs % nanosPerSecond = 0
  · rw [if_pos hzero, (fractionOf_eq_nil hlt).2 hzero]
    simp [pointed]
  · have hfraction : (fractionOf (d.nanos.natAbs % nanosPerSecond)).isEmpty = false := by
      simpa using mt (fractionOf_eq_nil hlt).1 hzero
    rw [if_neg hzero, pointed, hfraction]
    simp [fractionOf]

theorem spells_render (d : Duration) :
    Spells d.render (decide (d.nanos < 0)) [secondsOf d.nanos.natAbs] := by
  have hwritten := Written.cons (writes_seconds (decimal_ne_nil (d.nanos.natAbs / nanosPerSecond))
    (fun _ hd => isDigit_of_mem_decimal hd)
    (isDigit_of_mem_fractionOf (d.nanos.natAbs % nanosPerSecond))) .nil
  rw [List.append_nil] at hwritten
  exact ⟨List.cons_ne_nil _ _, ⟨_, toList_render d, hwritten⟩, List.pairwise_singleton _ _⟩

theorem tokenize_render (d : Duration) :
    (Lexer.ofString d.render).tokenize =
      [⟨.duration, d.render, .start⟩, .eof (endOf d.render)] :=
  tokenize_duration_iff.2 ⟨_, _, spells_render d⟩

theorem ofNanos?_nanos (d : Duration) : ofNanos? d.nanos = some d := dif_pos d.inRange

theorem parse?_render (d : Duration) : parse? d.render = some d := by
  rw [parse?_of_spells (spells_render d), totalNanos, totalNanos, nanos_secondsOf, Nat.add_zero]
  have hnanos : (if decide (d.nanos < 0) = true then -(d.nanos.natAbs : Int) else d.nanos.natAbs) =
      d.nanos := by
    split
    · rename_i hneg
      have hneg : d.nanos < 0 := of_decide_eq_true hneg
      omega
    · rename_i hneg
      have hneg : ¬ d.nanos < 0 := by simpa using hneg
      omega
  rw [hnanos, ofNanos?_nanos]

/-- Whole seconds, rounded toward zero. -/
def seconds (d : Duration) : Int := d.nanos.tdiv nanosPerSecond

/-- What the whole seconds leave, with the sign of the duration. -/
def subsecond (d : Duration) : Int := d.nanos.tmod nanosPerSecond

theorem ofSum?_seconds (d : Duration) : ofSum? d.seconds d.subsecond = some d := by
  have hsum : d.seconds * nanosPerSecond + d.subsecond = d.nanos := Int.tdiv_mul_add_tmod _ _
  have hrange : (d.seconds * nanosPerSecond).natAbs ≤ maxNanos := by
    refine Nat.le_trans ?_ d.inRange
    rw [Int.natAbs_mul, seconds, Int.natAbs_tdiv]
    exact Nat.div_mul_le_self _ _
  have hfirst : ofNanos? (d.seconds * nanosPerSecond) = some ⟨_, hrange⟩ := dif_pos hrange
  rw [ofSum?, hfirst, Option.bind_some, hsum, ofNanos?_nanos]

theorem natAbs_seconds_le (d : Duration) : d.seconds.natAbs ≤ 9223372036854775 := by
  rw [seconds, Int.natAbs_tdiv]
  exact Nat.div_le_div_right d.inRange

theorem natAbs_subsecond_lt (d : Duration) : d.subsecond.natAbs < nanosPerSecond := by
  rw [subsecond, Int.natAbs_tmod]
  exact Nat.mod_lt _ (by decide)

end ListQuery.Time.Duration
