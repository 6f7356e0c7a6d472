/-
How exact the length of a written duration is. Each component stands for a number of nanoseconds,
rounded down (`Component.exactNanos`). Reading cuts a fraction behind its eighteenth digit first.

The digits that are cut off are worth less than one nanosecond, and still they can take a fraction
past a whole one (`Component.Loses`). So `parse?_exact_iff`: the length is exact if and only if no
component loses, and each that does loses one nanosecond. From the second down, a unit is a divisor
of the scale of eighteen digits, and nothing is ever lost.
-/
import Mathlib.Algebra.Order.Floor.Semifield
import Mathlib.Data.Rat.Floor
import ListQuery.Proofs.Time.Agree

namespace ListQuery.Time.Duration

open Text

/-- How many of its units a component is written as. -/
def Component.amount (c : Component) : ℚ :=
  ofDigits 10 c.whole + ofDigits 10 c.fraction / 10 ^ c.fraction.length

/-- The nanoseconds of a component, rounded down once, with all its digits. -/
def Component.exactNanos (c : Component) : Nat := ⌊c.amount * c.unit.nanos⌋₊

/-- The nanoseconds of components, each rounded down. -/
def exactTotal (cs : List Component) : Nat := (cs.map Component.exactNanos).sum

theorem Component.exactNanos_eq (c : Component) :
    c.exactNanos = ofDigits 10 c.whole * c.unit.nanos +
      ofDigits 10 c.fraction * c.unit.nanos / 10 ^ c.fraction.length := by
  have hscale : (10 ^ c.fraction.length : ℚ) ≠ 0 := by positivity
  have hamount : c.amount * c.unit.nanos =
      ((ofDigits 10 c.whole * c.unit.nanos * 10 ^ c.fraction.length +
        ofDigits 10 c.fraction * c.unit.nanos : Nat) : ℚ) / (10 ^ c.fraction.length : Nat) := by
    unfold amount
    push_cast
    field_simp
  rw [exactNanos, hamount, Nat.floor_div_eq_div, Nat.add_comm, Nat.add_mul_div_right _ _ (by simp),
    Nat.add_comm]

/-! ## What the cut loses -/

/-- The digits that are cut off take the fraction past one more whole nanosecond. -/
def Component.Loses (c : Component) : Prop :=
  let kept := c.fraction.take fractionDigits
  let lost := c.fraction.drop fractionDigits
  10 ^ kept.length * 10 ^ lost.length ≤
    ofDigits 10 kept * c.unit.nanos % 10 ^ kept.length * 10 ^ lost.length +
      ofDigits 10 lost * c.unit.nanos

instance (c : Component) : Decidable c.Loses :=
  inferInstanceAs (Decidable (_ ≤ _))

/-- How many nanoseconds a component loses. -/
def Component.loss (c : Component) : Nat := if c.Loses then 1 else 0

/-- A quotient of less than two is one or nothing. -/
theorem div_of_lt_two_mul {t n : Nat} (hn : 0 < n) (h : t < 2 * n) :
    t / n = if n ≤ t then 1 else 0 := by
  split
  · exact (Nat.div_eq_iff hn).2 (by omega)
  · exact Nat.div_eq_of_lt (by omega)

/-- Less than one unit of the quotient in front of a fraction is lost with its last digits. -/
theorem add_div_scale {a v u s m : Nat} (hs : 0 < s) (hm : 0 < m) (h : v * u < s * m) :
    (a * m + v) * u / (s * m) =
      a * u / s + if s * m ≤ a * u % s * m + v * u then 1 else 0 := by
  have hsplit : (a * m + v) * u = a * u % s * m + v * u + a * u / s * (s * m) := by
    calc (a * m + v) * u = a * u * m + v * u := by ring
      _ = (s * (a * u / s) + a * u % s) * m + v * u := by rw [Nat.div_add_mod]
      _ = _ := by ring
  have hrest : a * u % s * m < s * m := Nat.mul_lt_mul_of_pos_right (Nat.mod_lt _ hs) hm
  have hscale : 0 < s * m := Nat.mul_pos hs hm
  rw [hsplit, Nat.add_mul_div_right _ _ hscale, Nat.add_comm,
    div_of_lt_two_mul hscale (by omega)]

theorem unit_le_scale (u : TimeUnit) : u.nanos ≤ 10 ^ fractionDigits := by
  cases u <;> decide

/-- The digits that are cut off are worth less than a nanosecond. -/
theorem Component.lost_lt {c : Component} (h : ∀ d ∈ c.fraction, d.isDigit = true) :
    ofDigits 10 (c.fraction.drop fractionDigits) * c.unit.nanos <
      10 ^ (c.fraction.take fractionDigits).length *
        10 ^ (c.fraction.drop fractionDigits).length := by
  by_cases hshort : c.fraction.length ≤ fractionDigits
  · have hnone : ofDigits 10 [] = 0 := rfl
    rw [List.drop_eq_nil_of_le hshort, hnone, Nat.zero_mul]
    positivity
  · have hlen : (c.fraction.take fractionDigits).length = fractionDigits := by
      rw [List.length_take]
      omega
    have hlt : ofDigits 10 (c.fraction.drop fractionDigits) <
        10 ^ (c.fraction.drop fractionDigits).length :=
      ofDigits_lt fun d hd => h d (List.mem_of_mem_drop hd)
    rw [hlen, Nat.mul_comm]
    exact Nat.mul_lt_mul_of_le_of_lt (unit_le_scale c.unit) hlt (by positivity)

theorem Component.exactNanos_eq_add {c : Component} (h : ∀ d ∈ c.fraction, d.isDigit = true) :
    c.exactNanos = c.nanos + c.loss := by
  have hcut := ofDigits_append 10 (c.fraction.take fractionDigits)
    (c.fraction.drop fractionDigits)
  have hlen := congrArg List.length (List.take_append_drop fractionDigits c.fraction)
  rw [List.take_append_drop] at hcut
  rw [List.length_append] at hlen
  rw [exactNanos_eq, ← hlen, Nat.pow_add, hcut,
    add_div_scale (by positivity) (by positivity) (c.lost_lt h), nanos_eq, Nat.add_assoc]
  rfl

theorem unit_dvd_scale {u : TimeUnit} (h : ¬ TimeUnit.second.rank < u.rank) :
    u.nanos ∣ 10 ^ fractionDigits := by
  cases u
  case hour | minute => exact absurd (by decide) h
  all_goals decide

/-- A multiple below another of the same number is at least that number below it. -/
theorem add_le_of_dvd {u r s : Nat} (hr : u ∣ r) (hs : u ∣ s) (h : r < s) : r + u ≤ s := by
  obtain ⟨k, rfl⟩ := hr
  obtain ⟨j, rfl⟩ := hs
  have hkj : k < j := Nat.lt_of_mul_lt_mul_left h
  calc u * k + u = u * (k + 1) := by ring
    _ ≤ u * j := Nat.mul_le_mul_left u hkj

/-- Only hours and minutes lose, and only with more digits than are kept. -/
theorem Component.Loses.long {c : Component} (h : ∀ d ∈ c.fraction, d.isDigit = true)
    (hl : c.Loses) : fractionDigits < c.fraction.length ∧ TimeUnit.second.rank < c.unit.rank := by
  unfold Loses at hl
  extract_lets kept lost at hl
  have hrest : ofDigits 10 kept * c.unit.nanos % 10 ^ kept.length < 10 ^ kept.length :=
    Nat.mod_lt _ (by positivity)
  have hlong : fractionDigits < c.fraction.length := by
    by_contra hshort
    have hnone : lost = [] := List.drop_eq_nil_of_le (by omega)
    rw [hnone] at hl
    simp only [List.length_nil, Nat.pow_zero, Nat.mul_one, ofDigits, List.foldl_nil,
      Nat.zero_mul] at hl
    omega
  refine ⟨hlong, ?_⟩
  by_contra hsmall
  have hlen : kept.length = fractionDigits := by
    rw [List.length_take]
    omega
  rw [hlen] at hl hrest
  -- The unit divides the scale, so what the kept digits leave is a unit short of it or more.
  have hscale : c.unit.nanos ∣ 10 ^ fractionDigits := unit_dvd_scale hsmall
  have hleft : c.unit.nanos ∣ ofDigits 10 kept * c.unit.nanos % 10 ^ fractionDigits :=
    (Nat.dvd_mod_iff hscale).2 (Nat.dvd_mul_left _ _)
  have hlost : ofDigits 10 lost < 10 ^ lost.length :=
    ofDigits_lt fun d hd => h d (List.mem_of_mem_drop hd)
  have hshort := Nat.mul_le_mul_right (10 ^ lost.length) (add_le_of_dvd hleft hscale hrest)
  have hvalue := Nat.mul_lt_mul_of_pos_right hlost (unit_bounds c.unit).1
  rw [Nat.add_mul] at hshort
  rw [Nat.mul_comm (10 ^ lost.length)] at hvalue
  omega

theorem exactTotal_eq {cs : List Component} {w : List Char} (h : Written cs w) :
    exactTotal cs = totalNanos cs + cs.countP fun c => c.Loses := by
  induction h with
  | nil => rfl
  | @cons c cs w v hc _ ih =>
    have hexact := c.exactNanos_eq_add hc.fraction_digits
    have htotal : exactTotal (c :: cs) = c.exactNanos + exactTotal cs := List.sum_cons
    rw [htotal, totalNanos, List.countP_cons, hexact, ih, Component.loss]
    simp only [decide_eq_true_eq]
    omega

theorem Written.fraction_digits {cs : List Component} {w : List Char} (h : Written cs w)
    {c : Component} (hc : c ∈ cs) : ∀ d ∈ c.fraction, d.isDigit = true := by
  induction h with
  | nil => cases hc
  | cons hw _ ih =>
    rcases List.mem_cons.1 hc with rfl | hc
    · exact hw.fraction_digits
    · exact ih hc

/-- There is one component with each unit at most, and two units lose. -/
theorem countP_loses_le {cs : List Component} {w : List Char} (hw : Written cs w)
    (ho : Ordered cs) : cs.countP (fun c => c.Loses) ≤ 2 := by
  rw [List.countP_eq_length_filter, ← List.length_map (f := fun c => c.unit.rank)]
  have hnodup : ((cs.filter fun c => c.Loses).map fun c => c.unit.rank).Nodup := by
    refine List.pairwise_map.2 ((ho.filter _).imp fun hab he => ?_)
    omega
  have hmem : ∀ n ∈ (cs.filter fun c => c.Loses).map fun c => c.unit.rank, n ∈ [5, 4] := by
    intro n hn
    obtain ⟨c, hc, rfl⟩ := List.mem_map.1 hn
    obtain ⟨hc, hl⟩ := List.mem_filter.1 hc
    have hrank := (Component.Loses.long (hw.fraction_digits hc) (by simpa using hl)).2
    generalize c.unit = u at hrank
    revert hrank
    cases u <;> decide
  exact (List.subperm_of_subset hnodup hmem).length_le

theorem nanos_of_ofNanos? {n : Int} {d : Duration} (h : ofNanos? n = some d) : d.nanos = n := by
  unfold ofNanos? at h
  split at h
  · cases h
    rfl
  · cases h

/-- The length of a duration is that of its components, each rounded down, except that components
with more digits than are kept may lose a nanosecond: hours and minutes, two at most. -/
theorem parse?_exact_iff {text : String} {negative : Bool} {cs : List Component} {d : Duration}
    (hs : Spells text negative cs) (hd : parse? text = some d) :
    (d.nanos = (if negative then -1 else 1) * (exactTotal cs : Int) ↔ ∀ c ∈ cs, ¬ c.Loses) ∧
    d.nanos = (if negative then -1 else 1) *
      ((exactTotal cs : Int) - (cs.countP fun c => c.Loses : Nat)) ∧
    cs.countP (fun c => c.Loses) ≤ 2 ∧
    ∀ c ∈ cs, c.Loses →
      fractionDigits < c.fraction.length ∧ TimeUnit.second.rank < c.unit.rank := by
  obtain ⟨w, -, hw⟩ := hs.written
  have htotal := exactTotal_eq hw
  have hnanos : d.nanos = (if negative then -1 else 1) * (totalNanos cs : Int) := by
    rw [parse?_of_spells hs] at hd
    rw [nanos_of_ofNanos? hd]
    cases negative <;> simp
  refine ⟨?_, ?_, countP_loses_le hw hs.ordered, fun c hc hl => hl.long (hw.fraction_digits hc)⟩
  · have hnone : (∀ c ∈ cs, ¬ c.Loses) ↔ cs.countP (fun c => c.Loses) = 0 := by
      simp [List.countP_eq_zero]
    rw [hnone, hnanos, htotal]
    cases negative <;> simp
  · rw [hnanos, htotal]
    push_cast
    ring

/-- The nineteenth digit takes the fraction of an hour past a nanosecond, and is cut off. -/
theorem parse?_cuts_nanosecond :
    ∃ c d, Spells "0.0000000000002777778h" false [c] ∧
      parse? "0.0000000000002777778h" = some d ∧ d.nanos = 0 ∧ exactTotal [c] = 1 := by
  let c : Component := ⟨['0'], "0000000000002777778".toList, .hour⟩
  have hwrites : c.Writes "0.0000000000002777778h".toList :=
    ⟨by simp [c], List.all_eq_true.1 rfl, List.all_eq_true.1 rfl, "h",
      by simp [c, TimeUnit.spellings], rfl⟩
  have hspells : Spells "0.0000000000002777778h" false [c] :=
    ⟨by simp, ⟨_, rfl, .cons hwrites .nil⟩, by decide⟩
  have hparse : parse? "0.0000000000002777778h" = some ⟨0, by decide⟩ := by
    have htotal : totalNanos [c] = 0 := by decide
    rw [parse?_of_spells hspells, htotal]
    rfl
  have hlosses : [c].countP (fun c => c.Loses) = 1 := by decide
  have hnanos := (parse?_exact_iff hspells hparse).2.1
  rw [hlosses] at hnanos
  refine ⟨c, _, hspells, hparse, rfl, ?_⟩
  simp at hnanos
  omega

end ListQuery.Time.Duration
