/-
Days counted one at a time. `Date.Numbered` numbers the days of the calendar by going from day to
day, forwards and backwards from the first of January 1970, and no formula occurs in it. The formula
for the number of a day gives exactly this numbering (`Date.numbered_iff`).

A year is gone through month by month and a month day by day (`iterate_next_year`), so every day is
reached from the first day of its year, and the first day of every year from 1970.
-/
import Mathlib.Data.Int.Init
import Mathlib.Logic.Function.Iterate
import Mathlib.Tactic.IntervalCases
import ListQuery.Time.Calendar

namespace ListQuery.Time

theorem daysInMonth_pos {month : Nat} (h1 : 1 ≤ month) (h12 : month ≤ 12) (year : Int) :
    1 ≤ daysInMonth year month := by
  interval_cases month <;> simp only [daysInMonth] <;> first | omega | (split <;> omega)

theorem daysBeforeMonth_succ {month : Nat} (h1 : 1 ≤ month) (year : Int) :
    daysBeforeMonth year (month + 1) = daysBeforeMonth year month + daysInMonth year month := by
  obtain ⟨m, rfl⟩ := Nat.exists_eq_add_of_le' h1
  rfl

/-- The days of a whole year are those from its first to its last month. -/
theorem daysBeforeYear_succ (year : Int) :
    daysBeforeYear (year + 1) = daysBeforeYear year + daysBeforeMonth year 13 := by
  have hmonths : daysBeforeMonth year 13 = if isLeapYear year then 366 else 365 := by
    simp only [daysBeforeMonth, daysInMonth]
    split <;> rfl
  have hleap : isLeapYear year = true ↔ (year % 4 = 0 ∧ year % 100 ≠ 0) ∨ year % 400 = 0 := by
    simp [isLeapYear]
  simp only [daysBeforeYear, hmonths, Int.fdiv_eq_ediv_of_nonneg _ (show (0 : Int) ≤ 4 by decide),
    Int.fdiv_eq_ediv_of_nonneg _ (show (0 : Int) ≤ 100 by decide),
    Int.fdiv_eq_ediv_of_nonneg _ (show (0 : Int) ≤ 400 by decide)]
  split
  · rename_i h
    have := hleap.1 h
    omega
  · rename_i h
    have := mt hleap.2 h
    omega

namespace Date

/-- The day after a day. -/
def next (d : Date) : Date :=
  if d.day < daysInMonth d.year d.month then ⟨d.year, d.month, d.day + 1⟩
  else if d.month < 12 then ⟨d.year, d.month + 1, 1⟩
  else ⟨d.year + 1, 1, 1⟩

/-- Days numbered one by one from the first of January 1970, which has the number zero. -/
inductive Numbered : Date → Int → Prop
  | epoch : Numbered ⟨1970, 1, 1⟩ 0
  | after {d : Date} {n : Int} : Numbered d n → Numbered d.next (n + 1)
  | before {d : Date} {n : Int} : d.Valid → Numbered d.next n → Numbered d (n - 1)

theorem valid_first (year : Int) : Valid ⟨year, 1, 1⟩ :=
  ⟨Nat.le_refl 1, Nat.le_of_ble_eq_true rfl, Nat.le_refl 1, daysInMonth_pos (Nat.le_refl 1) (by decide) year⟩

theorem Valid.next {d : Date} (h : d.Valid) : d.next.Valid := by
  obtain ⟨hm1, hm12, hd1, hd⟩ := h
  unfold Date.next
  split
  · exact ⟨hm1, hm12, Nat.le_add_left 1 _, by assumption⟩
  · split
    · rename_i hm
      exact ⟨Nat.le_add_left 1 _, hm, Nat.le_refl 1, daysInMonth_pos (Nat.le_add_left 1 _) hm _⟩
    · exact valid_first _

/-- The formula goes up by one from a day to the next. -/
theorem toDays_next {d : Date} (h : d.Valid) : d.next.toDays = d.toDays + 1 := by
  obtain ⟨hm1, hm12, hd1, hd⟩ := h
  unfold Date.next
  split
  · simp only [toDays]
    omega
  · rename_i hlast
    have hday : d.day = daysInMonth d.year d.month := Nat.le_antisymm hd (Nat.not_lt.1 hlast)
    split
    · have hmonth := daysBeforeMonth_succ hm1 d.year
      simp only [toDays]
      omega
    · rename_i hdec
      have hmonth : d.month = 12 := by omega
      have hyear := daysBeforeYear_succ d.year
      have hsplit : daysBeforeMonth d.year 13 = _ := daysBeforeMonth_succ (by decide : 1 ≤ 12) d.year
      have hfirst : daysBeforeMonth (d.year + 1) 1 = 0 := rfl
      rw [hmonth] at hday
      simp only [toDays, hmonth, hfirst]
      omega

theorem Numbered.valid {d : Date} {n : Int} (h : Numbered d n) : d.Valid := by
  induction h with
  | epoch => decide
  | after _ ih => exact ih.next
  | before hd _ _ => exact hd

theorem Numbered.eq_toDays {d : Date} {n : Int} (h : Numbered d n) : n = d.toDays := by
  induction h with
  | epoch => decide
  | after hd ih => rw [toDays_next hd.valid, ih]
  | before hd _ ih => rw [ih, toDays_next hd, Int.add_sub_cancel]

/-! ## Every day has a number -/

/-- Days of one month follow each other. -/
theorem iterate_next_month {year : Int} {month : Nat} {k : Nat}
    (hk : k < daysInMonth year month) : next^[k] ⟨year, month, 1⟩ = ⟨year, month, k + 1⟩ := by
  induction k with
  | zero => rfl
  | succ k ih =>
    rw [Function.iterate_succ_apply', ih (by omega)]
    exact if_pos hk

/-- The first days of the months of a year follow each other. -/
theorem iterate_next_year {year : Int} {month : Nat} (h1 : 1 ≤ month) (h12 : month ≤ 12) :
    next^[daysBeforeMonth year month] ⟨year, 1, 1⟩ = ⟨year, month, 1⟩ := by
  induction month, h1 using Nat.le_induction with
  | base => rfl
  | succ month h1 ih =>
    -- all days of the month before but the last, and then its last
    have hpos := daysInMonth_pos h1 (by omega : month ≤ 12) year
    obtain ⟨k, hk⟩ := Nat.exists_eq_add_of_le' hpos
    have hlast : next ⟨year, month, k + 1⟩ = ⟨year, month + 1, 1⟩ := by
      unfold next
      rw [if_neg (by simp only; omega), if_pos (by simp only; omega)]
    rw [daysBeforeMonth_succ h1, hk, Nat.add_comm, Function.iterate_add_apply, ih (by omega),
      Function.iterate_succ_apply', iterate_next_month (by omega), hlast]

/-- The first days of the years follow each other. -/
theorem iterate_next_first (year : Int) :
    ∃ k, next^[k] ⟨year, 1, 1⟩ = ⟨year + 1, 1, 1⟩ := by
  have hlast : next ⟨year, 12, 31⟩ = ⟨year + 1, 1, 1⟩ := rfl
  refine ⟨1 + (30 + daysBeforeMonth year 12), ?_⟩
  rw [Function.iterate_add_apply, Function.iterate_add_apply,
    iterate_next_year (by decide) (by decide), iterate_next_month (by decide : 30 < 31)]
  exact hlast

theorem valid_iterate_next {d : Date} (h : d.Valid) (k : Nat) : (next^[k] d).Valid := by
  induction k with
  | zero => exact h
  | succ k ih =>
    rw [Function.iterate_succ_apply']
    exact ih.next

/-- Of two days one of which comes after the other, both have a number or none has. -/
theorem exists_numbered_iterate {d : Date} (h : d.Valid) (k : Nat) :
    (∃ n, Numbered (next^[k] d) n) ↔ ∃ n, Numbered d n := by
  induction k with
  | zero => exact Iff.rfl
  | succ k ih =>
    rw [← ih, Function.iterate_succ_apply']
    constructor
    · rintro ⟨n, hn⟩
      exact ⟨n - 1, .before (valid_iterate_next h k) hn⟩
    · rintro ⟨n, hn⟩
      exact ⟨n + 1, .after hn⟩

theorem exists_numbered_first (year : Int) : ∃ n, Numbered ⟨year, 1, 1⟩ n := by
  have hstep : ∀ y, (∃ n, Numbered ⟨y + 1, 1, 1⟩ n) ↔ ∃ n, Numbered ⟨y, 1, 1⟩ n := by
    intro y
    obtain ⟨k, hk⟩ := iterate_next_first y
    rw [← hk, exists_numbered_iterate (valid_first y)]
  induction year using Int.inductionOn' (b := 1970) with
  | zero => exact ⟨0, .epoch⟩
  | succ y _ ih => exact (hstep y).2 ih
  | pred y _ ih =>
    refine (hstep (y - 1)).1 ?_
    rwa [Int.sub_add_cancel]

/-- A day is numbered exactly when there is such a day, and its number is the one of the formula. -/
theorem numbered_iff {d : Date} {n : Int} : Numbered d n ↔ d.Valid ∧ n = d.toDays := by
  constructor
  · exact fun h => ⟨h.valid, h.eq_toDays⟩
  · rintro ⟨hd, rfl⟩
    obtain ⟨year, month, day⟩ := d
    obtain ⟨hm1, hm12, hd1, hday⟩ := id hd
    obtain ⟨k, rfl⟩ := Nat.exists_eq_add_of_le' hd1
    have hmonth : next^[k] ⟨year, month, 1⟩ = ⟨year, month, k + 1⟩ := iterate_next_month hday
    have hwalk : next^[k + daysBeforeMonth year month] ⟨year, 1, 1⟩ = ⟨year, month, k + 1⟩ := by
      rw [Function.iterate_add_apply, iterate_next_year hm1 hm12, hmonth]
    obtain ⟨n, hn⟩ := (exists_numbered_iterate (valid_first year) _).2 (exists_numbered_first year)
    rw [hwalk] at hn
    rwa [hn.eq_toDays] at hn

example : Numbered ⟨2000, 2, 29⟩ 11016 := numbered_iff.2 (by decide)

end Date

end ListQuery.Time
