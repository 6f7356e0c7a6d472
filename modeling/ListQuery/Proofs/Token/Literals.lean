/-
The number-like literals as languages (`Literal.texts`), each built from the languages of its parts,
and what the readers of these parts accept.

A reader is measured by the words it takes: it succeeds and leaves `r` exactly where a word of a
language stands before `r` (`Reads`). Readers one behind the other take the product of their
languages, so the language of a timestamp is read off its reader step by step (`reads_afterYear`).
Only the fraction of a second is no such reader, since it takes as many digits as there are. It is
one together with the zone behind it.
-/
import Mathlib.Computability.Language
import Mathlib.Data.List.TakeWhile
import ListQuery.Proofs.Time.Written
import ListQuery.Proofs.Token.Local

namespace ListQuery.Filter

open Text Time

namespace Literal

/-- One character out of a few. -/
def oneOf (chars : String) : Language Char :=
  {w | ∃ c ∈ chars.toList, w = [c]}

/-- One or more characters of a class. -/
def run (p : Char → Bool) : Language Char :=
  {w | w ≠ [] ∧ ∀ c ∈ w, p c = true}

def optional (l : Language Char) : Language Char := 1 + l

/-- A given number of digits. -/
def width (n : Nat) : Language Char :=
  {w | w.length = n ∧ ∀ c ∈ w, c.isDigit = true}

/-- Two digits that spell a number in a range. -/
def between (low high : Nat) : Language Char :=
  {w | w ∈ width 2 ∧ low ≤ ofDigits 10 w ∧ ofDigits 10 w ≤ high}

/-- A sign that may stand before a literal. -/
def sign : Language Char := optional (oneOf "-")

def digits : Language Char := run Char.isDigit

def hexadecimal : Language Char := oneOf "0" * (oneOf "xX" * run isHexDigit)

def hex : Language Char := sign * hexadecimal

/-- Octal digits behind a mark, or behind a zero alone. -/
def octal : Language Char :=
  oneOf "0" * (oneOf "oO" * run isOctalDigit) + oneOf "0" * run isOctalDigit

def oct : Language Char := sign * octal

/-- Digits that are no octal literal. -/
def int : Language Char := sign * digits - oct

def fraction : Language Char := oneOf "." * digits

def exponent : Language Char := oneOf "eE" * (optional (oneOf "+-") * digits)

/-- A fraction, an exponent, or both. -/
def scale : Language Char := fraction * optional exponent + exponent

def numeric : Language Char := sign * (digits * scale)

/-- One or more components: the units go strictly down, and no fraction comes after a unit below
the second. -/
def components : Language Char :=
  {w | ∃ cs, cs ≠ [] ∧ Duration.Written cs w ∧ Duration.Ordered cs}

def duration : Language Char := sign * components

/-- A day of the calendar, its year written with four digits. -/
def date : Language Char :=
  {w | ∃ y ∈ width 4, ∃ m ∈ width 2, ∃ d ∈ width 2, w = y ++ '-' :: (m ++ '-' :: d) ∧
    Date.Valid ⟨ofDigits 10 y, ofDigits 10 m, ofDigits 10 d⟩}

def time : Language Char :=
  between 0 23 * (oneOf ":" * (between 0 59 * (oneOf ":" * between 0 59)))

/-- One to nine digits. -/
def upToNine : Language Char := {w | w ∈ digits ∧ w.length ≤ 9}

def zone : Language Char :=
  oneOf "Zz" + oneOf "+-" * (between 0 23 * (oneOf ":" * between 0 59))

def timestamp : Language Char :=
  date * (oneOf "Tt" * (time * (optional (oneOf "." * upToNine) * zone)))

/-- The texts of each kind of number-like literal. -/
def texts : Kind → Language Char
  | .hex => hex
  | .oct => oct
  | .int => int
  | .numeric => numeric
  | .duration => duration
  | .timestamp => timestamp
  | _ => 0

variable {w : List Char} {l m : Language Char}

theorem mem_oneOf_mul {chars : String} :
    w ∈ oneOf chars * l ↔ ∃ c ∈ chars.toList, ∃ t ∈ l, w = c :: t := by
  rw [Language.mem_mul]
  constructor
  · rintro ⟨_, ⟨c, hc, rfl⟩, t, ht, rfl⟩
    exact ⟨c, hc, t, ht, rfl⟩
  · rintro ⟨c, hc, t, ht, rfl⟩
    exact ⟨[c], ⟨c, hc, rfl⟩, t, ht, rfl⟩

theorem mem_optional_mul : w ∈ optional l * m ↔ w ∈ m ∨ w ∈ l * m := by
  rw [optional, add_mul, one_mul]
  exact Iff.rfl

end Literal

/-! ## Timestamps -/

open Literal

namespace Lexeme.Reader

/-- The reader succeeds and leaves `r` exactly where a word of the language stands before `r`. -/
def Reads {α : Type} (p : Reader α) (l : Language Char) : Prop :=
  ∀ cs r, (∃ a, p cs = .ok a r) ↔ ∃ w ∈ l, w ++ r = cs

theorem bind_eq_ok {α β : Type} {p : Reader α} {q : α → Reader β} {cs r : List Char} {b : β} :
    (p >>= q) cs = .ok b r ↔ ∃ a m, p cs = .ok a m ∧ q a m = .ok b r := by
  simp only [Bind.bind, EStateM.bind]
  cases p cs with
  | ok a m => simp
  | error f m => simp

theorem reads_pure {α : Type} (a : α) : Reads (Pure.pure a : Reader α) 1 := by
  intro cs r
  constructor
  · rintro ⟨b, hb⟩
    cases hb
    exact ⟨[], rfl, rfl⟩
  · rintro ⟨w, rfl, rfl⟩
    exact ⟨a, rfl⟩

theorem Reads.seq {α β : Type} {p : Reader α} {q : Reader β} {l m : Language Char}
    (hp : p.Reads l) (hq : q.Reads m) : Reads (p >>= fun _ => q) (l * m) := by
  intro cs r
  constructor
  · rintro ⟨b, hb⟩
    obtain ⟨a, s, ha, hs⟩ := bind_eq_ok.1 hb
    obtain ⟨w, hw, rfl⟩ := (hp cs s).1 ⟨a, ha⟩
    obtain ⟨v, hv, rfl⟩ := (hq s r).1 ⟨b, hs⟩
    exact ⟨w ++ v, Language.append_mem_mul hw hv, List.append_assoc w v r⟩
  · rintro ⟨_, hwv, rfl⟩
    obtain ⟨w, hw, v, hv, rfl⟩ := Language.mem_mul.1 hwv
    obtain ⟨a, ha⟩ := (hp (w ++ v ++ r) (v ++ r)).2 ⟨w, hw, (List.append_assoc w v r).symm⟩
    obtain ⟨b, hb⟩ := (hq (v ++ r) r).2 ⟨v, hv, rfl⟩
    exact ⟨b, bind_eq_ok.2 ⟨a, v ++ r, ha, hb⟩⟩

theorem reads_expect {accept : Char → Bool} {chars : String} (fault : Fault)
    (h : ∀ c, accept c = true ↔ c ∈ chars.toList) : Reads (expect accept fault) (oneOf chars) := by
  intro cs r
  constructor
  · rintro ⟨u, hu⟩
    rcases cs with _ | ⟨c, t⟩
    · cases hu
    · simp only [expect] at hu
      split at hu
      · rename_i hc
        cases hu
        exact ⟨[c], ⟨c, (h c).1 hc, rfl⟩, rfl⟩
      · cases hu
  · rintro ⟨_, ⟨c, hc, rfl⟩, rfl⟩
    exact ⟨(), by simp [expect, (h c).2 hc]⟩

theorem ranged_eq_ok_iff {invalid outside : Fault} {low high n : Nat} {cs r : List Char} :
    ranged invalid outside low high cs = .ok n r ↔
      ∃ w ∈ between low high, ofDigits 10 w = n ∧ w ++ r = cs := by
  have htwo : ∀ n, twoDigits invalid cs = .ok n r ↔
      ∃ w ∈ width 2, ofDigits 10 w = n ∧ w ++ r = cs := by
    intro n
    constructor
    · intro h
      unfold twoDigits at h
      split at h
      · rename_i a b t
        split at h
        · rename_i hab
          cases h
          exact ⟨[a, b], ⟨rfl, by simpa using hab⟩, rfl, rfl⟩
        · cases h
      · cases h
    · rintro ⟨w, ⟨hlen, hd⟩, rfl, rfl⟩
      obtain ⟨a, b, rfl⟩ := List.length_eq_two.1 hlen
      simp only [List.mem_cons, List.not_mem_nil, or_false, forall_eq_or_imp, forall_eq] at hd
      simp [twoDigits, hd]
  rw [ranged, bind_eq_ok]
  constructor
  · rintro ⟨a, m, ha, h⟩
    split at h
    · rename_i hrange
      cases h
      obtain ⟨w, hw, rfl, hcs⟩ := (htwo _).1 ha
      exact ⟨w, ⟨hw, hrange⟩, rfl, hcs⟩
    · cases h
  · rintro ⟨w, ⟨hw, hrange⟩, rfl, hcs⟩
    refine ⟨_, r, (htwo _).2 ⟨w, hw, rfl, hcs⟩, ?_⟩
    rw [if_pos hrange]
    rfl

theorem reads_ranged (invalid outside : Fault) (low high : Nat) :
    Reads (ranged invalid outside low high) (between low high) := by
  intro cs r
  simp only [ranged_eq_ok_iff]
  constructor
  · rintro ⟨n, w, hw, -, hcs⟩
    exact ⟨w, hw, hcs⟩
  · rintro ⟨w, hw, hcs⟩
    exact ⟨_, w, hw, rfl, hcs⟩

/-- A number in a range whose value decides what is read behind it. -/
theorem reads_ranged_bind {β : Type} {invalid outside : Fault} {low high : Nat}
    {q : Nat → Reader β} {m : Nat → Language Char} (hq : ∀ n, (q n).Reads (m n)) :
    Reads (ranged invalid outside low high >>= q)
      {w | ∃ a ∈ between low high, ∃ b ∈ m (ofDigits 10 a), w = a ++ b} := by
  intro cs r
  constructor
  · rintro ⟨b, hb⟩
    obtain ⟨n, s, hn, hs⟩ := bind_eq_ok.1 hb
    obtain ⟨w, hw, rfl, rfl⟩ := ranged_eq_ok_iff.1 hn
    obtain ⟨v, hv, rfl⟩ := (hq _ s r).1 ⟨b, hs⟩
    exact ⟨w ++ v, ⟨w, hw, v, hv, rfl⟩, List.append_assoc w v r⟩
  · rintro ⟨_, ⟨w, hw, v, hv, rfl⟩, rfl⟩
    obtain ⟨b, hb⟩ := (hq (ofDigits 10 w) (v ++ r) r).2 ⟨v, hv, rfl⟩
    exact ⟨b, bind_eq_ok.2
      ⟨_, v ++ r, ranged_eq_ok_iff.2 ⟨w, hw, rfl, (List.append_assoc w v r).symm⟩, hb⟩⟩

theorem reads_colon (fault : Fault) : Reads (expect (· == ':') fault) (oneOf ":") :=
  reads_expect fault (by simp)

theorem reads_zone : Reads Reader.zone Literal.zone := by
  have hoffset : Reads (do
      let _ ← ranged .invalidOffsetHour .offsetHourRange 0 23
      expect (· == ':') .noColonInOffset
      let _ ← ranged .invalidOffsetMinute .offsetMinuteRange 0 59
      pure () : Reader Unit) (between 0 23 * (oneOf ":" * (between 0 59 * 1))) :=
    (reads_ranged _ _ _ _).seq ((reads_colon _).seq ((reads_ranged _ _ _ _).seq (reads_pure ())))
  rw [mul_one] at hoffset
  intro cs r
  constructor
  · rintro ⟨u, hu⟩
    rcases cs with _ | ⟨c, t⟩
    · cases hu
    · simp only [Reader.zone] at hu
      split at hu
      · rename_i hz
        cases hu
        exact ⟨[c], .inl ⟨c, by simpa using hz, rfl⟩, rfl⟩
      · split at hu
        · rename_i hs
          obtain ⟨w, hw, rfl⟩ := (hoffset t r).1 ⟨u, hu⟩
          exact ⟨c :: w, .inr (mem_oneOf_mul.2 ⟨c, by simpa using hs, w, hw, rfl⟩), rfl⟩
        · cases hu
  · rintro ⟨_, ⟨c, hc, rfl⟩ | hw, rfl⟩
    · exact ⟨(), by simp [Reader.zone, show c = 'Z' ∨ c = 'z' by simpa using hc]⟩
    · obtain ⟨c, hc, t, ht, rfl⟩ := mem_oneOf_mul.1 hw
      have hs : c = '+' ∨ c = '-' := by simpa using hc
      have hz : ¬ (c = 'Z' ∨ c = 'z') := by rcases hs with rfl | rfl <;> decide
      obtain ⟨u, hu⟩ := (hoffset (t ++ r) r).2 ⟨t, ht, rfl⟩
      exact ⟨u, by simpa only [List.cons_append, Reader.zone, hz, hs, ↓reduceIte] using hu⟩

/-- A zone starts with neither a digit nor a point. -/
theorem head_of_zone {w : List Char} (h : w ∈ Literal.zone) :
    ∃ c t, w = c :: t ∧ c.isDigit = false ∧ c ≠ '.' := by
  rcases h with ⟨c, hc, rfl⟩ | h
  · refine ⟨c, [], rfl, ?_⟩
    rcases (show c = 'Z' ∨ c = 'z' by simpa using hc) with rfl | rfl <;> decide
  · obtain ⟨c, hc, t, -, rfl⟩ := mem_oneOf_mul.1 h
    refine ⟨c, t, rfl, ?_⟩
    rcases (show c = '+' ∨ c = '-' by simpa using hc) with rfl | rfl <;> decide

/-- The digits of the fraction end where the zone starts. -/
theorem reads_fraction_zone :
    Reads (fraction >>= fun _ => Reader.zone)
      (optional (oneOf "." * upToNine) * Literal.zone) := by
  intro cs r
  simp only [mem_optional_mul, bind_eq_ok]
  constructor
  · rintro ⟨u, v, m, hf, hz⟩
    obtain ⟨z, hzone, rfl⟩ := (reads_zone m r).1 ⟨u, hz⟩
    unfold fraction at hf
    split at hf
    · rename_i t
      simp only at hf
      split at hf
      · rename_i hcount
        have hm := (EStateM.Result.ok.inj hf).2
        refine ⟨'.' :: t.takeWhile Char.isDigit ++ z, .inr ?_, ?_⟩
        · have hds : t.takeWhile Char.isDigit ∈ upToNine := by
            refine ⟨⟨?_, List.all_eq_true.1 List.all_takeWhile⟩, hcount.2⟩
            intro he
            rw [he] at hcount
            exact absurd hcount.1 (by decide)
          exact Language.append_mem_mul (mem_oneOf_mul.2 ⟨'.', by simp, _, hds, rfl⟩) hzone
        · rw [List.append_assoc, ← hm, List.cons_append, List.takeWhile_append_dropWhile]
      · cases hf
    · cases hf
      exact ⟨z, .inl hzone, rfl⟩
  · rintro ⟨w, hw, rfl⟩
    rcases hw with hw | hw
    · obtain ⟨u, hu⟩ := (reads_zone (w ++ r) r).2 ⟨w, hw, rfl⟩
      obtain ⟨c, t, rfl, -, hp⟩ := head_of_zone hw
      exact ⟨u, (), _, by simp [fraction, hp], hu⟩
    · obtain ⟨f, hf, z, hzone, rfl⟩ := Language.mem_mul.1 hw
      obtain ⟨c, hc, ds, ⟨⟨hne, hds⟩, hlen⟩, rfl⟩ := mem_oneOf_mul.1 hf
      obtain rfl : c = '.' := by simpa using hc
      obtain ⟨u, hu⟩ := (reads_zone (z ++ r) r).2 ⟨z, hzone, rfl⟩
      obtain ⟨a, t, hat, ha, -⟩ := head_of_zone hzone
      obtain ⟨htake, hdrop⟩ := Duration.takeWhile_digits (x := z ++ r) hds
        ⟨a, t ++ r, by rw [hat]; rfl, ha⟩
      have hcount : 1 ≤ ds.length ∧ ds.length ≤ 9 :=
        ⟨Nat.one_le_iff_ne_zero.2 (by simpa using hne), hlen⟩
      refine ⟨u, (), z ++ r, ?_, hu⟩
      rw [List.append_assoc, List.cons_append]
      simp only [fraction, htake, hdrop, hcount, and_self, ↓reduceIte]

/-- What follows the year of a timestamp and its dash. -/
def afterYearTexts (year : Nat) : Language Char :=
  {w | ∃ m ∈ between 1 12, ∃ b ∈ oneOf "-" * (between 1 (daysInMonth year (ofDigits 10 m)) *
    (oneOf "Tt" * (time * (optional (oneOf "." * upToNine) * Literal.zone)))), w = m ++ b}

theorem reads_afterYear (year : Nat) : Reads (afterYear year) (afterYearTexts year) := by
  unfold afterYear afterYearTexts
  simp only [time, mul_assoc]
  refine reads_ranged_bind (m := fun n => oneOf "-" * (between 1 (daysInMonth year n) * _))
    fun month => ?_
  refine (reads_expect _ (by simp)).seq ((reads_ranged _ _ _ _).seq ?_)
  refine (reads_expect _ (by simp)).seq ((reads_ranged _ _ _ _).seq ?_)
  refine (reads_colon _).seq ((reads_ranged _ _ _ _).seq ?_)
  exact (reads_colon _).seq ((reads_ranged _ _ _ _).seq reads_fraction_zone)

end Lexeme.Reader

namespace Lexeme

theorem timestamp_eq_iff {year : Nat} {cs : List Char} :
    Lexeme.timestamp year cs = (.timestamp, []) ↔ cs ∈ Reader.afterYearTexts year := by
  have hreads := Reader.reads_afterYear year cs []
  simp only [List.append_nil, exists_eq_right] at hreads
  rw [← hreads]
  constructor
  · intro h
    unfold Lexeme.timestamp at h
    split at h
    · rename_i u rest hu
      split at h
      · cases h
      · cases h
        exact ⟨u, hu⟩
    · cases h
  · rintro ⟨u, hu⟩
    simp [Lexeme.timestamp, hu, startsWord]

/-- A timestamp is a year of four digits, a dash, and what follows them. -/
theorem mem_timestamp_iff {w : List Char} :
    w ∈ Literal.timestamp ↔ ∃ y ∈ width 4, ∃ t ∈ Reader.afterYearTexts (ofDigits 10 y),
      w = y ++ '-' :: t := by
  rw [Literal.timestamp, Language.mem_mul]
  constructor
  · rintro ⟨_, ⟨y, hy, m, hm, d, hd, rfl, hm1, hm2, hd1, hd2⟩, b, hb, rfl⟩
    refine ⟨y, hy, _, ⟨m, ⟨hm, hm1, hm2⟩, '-' :: (d ++ b), ?_, rfl⟩, by simp⟩
    refine mem_oneOf_mul.2 ⟨'-', by simp, d ++ b, ?_, rfl⟩
    exact Language.append_mem_mul ⟨hd, hd1, hd2⟩ hb
  · rintro ⟨y, hy, _, ⟨m, ⟨hm, hm1, hm2⟩, _, hrest, rfl⟩, rfl⟩
    obtain ⟨c, hc, t, ht, rfl⟩ := mem_oneOf_mul.1 hrest
    obtain rfl : c = '-' := by simpa using hc
    obtain ⟨d, ⟨hd, hd1, hd2⟩, b, hb, rfl⟩ := Language.mem_mul.1 ht
    exact ⟨_, ⟨y, hy, m, hm, d, hd, rfl, hm1, hm2, hd1, hd2⟩, b, hb, by simp⟩

/-! ## Fractions and exponents -/

theorem cons_takeWhile_mem_digits {d : Char} (hd : d.isDigit = true) (t : List Char) :
    d :: t.takeWhile Char.isDigit ∈ digits := by
  refine ⟨by simp, fun c hc => ?_⟩
  rcases List.mem_cons.1 hc with rfl | hc
  · exact hd
  · exact List.all_eq_true.1 List.all_takeWhile c hc

theorem mem_fraction_of_fraction? {cs r : List Char} (h : fraction? cs = some r) :
    ∃ f ∈ Literal.fraction, cs = f ++ r := by
  unfold fraction? at h
  split at h
  · rename_i d t
    split at h
    · rename_i hd
      cases h
      refine ⟨'.' :: d :: t.takeWhile Char.isDigit, ?_, by simp [List.takeWhile_append_dropWhile]⟩
      exact mem_oneOf_mul.2 ⟨'.', by simp, _, cons_takeWhile_mem_digits hd t, rfl⟩
    · cases h
  · cases h

theorem fraction?_of_mem {f r : List Char} (hf : f ∈ Literal.fraction)
    (hr : ∀ c ∈ r.head?, c.isDigit = false) : fraction? (f ++ r) = some r := by
  obtain ⟨c, hc, ds, ⟨hne, hds⟩, rfl⟩ := mem_oneOf_mul.1 hf
  obtain rfl : c = '.' := by simpa using hc
  cases ds with
  | nil => exact absurd rfl hne
  | cons d ds =>
    have hall : ∀ c ∈ ds, c.isDigit = true := fun c hc => hds c (by simp [hc])
    simp only [List.cons_append, fraction?, hds d (by simp), ↓reduceIte, (run_append hall hr).2]

theorem mem_exponent_of_exponent? {cs r : List Char} (h : exponent? cs = some r) :
    ∃ e ∈ Literal.exponent, cs = e ++ r := by
  unfold exponent? at h
  split at h
  · rename_i e s t
    split at h
    · rename_i he
      split at h
      · rename_i hs
        split at h
        · rename_i d t
          split at h
          · rename_i hd
            cases h
            have hsigned : s :: d :: t.takeWhile Char.isDigit ∈ oneOf "+-" * digits :=
              mem_oneOf_mul.2 ⟨s, by simpa using hs, _, cons_takeWhile_mem_digits hd t, rfl⟩
            refine ⟨e :: s :: d :: t.takeWhile Char.isDigit, mem_oneOf_mul.2
              ⟨e, by simpa using he, _, mem_optional_mul.2 (.inr hsigned), rfl⟩, ?_⟩
            simp [List.takeWhile_append_dropWhile]
          · cases h
        · cases h
      · split at h
        · rename_i hd
          cases h
          have hplain := cons_takeWhile_mem_digits hd t
          refine ⟨e :: s :: t.takeWhile Char.isDigit, mem_oneOf_mul.2
            ⟨e, by simpa using he, _, mem_optional_mul.2 (.inl hplain), rfl⟩, ?_⟩
          simp [List.takeWhile_append_dropWhile]
        · cases h
    · cases h
  · cases h

theorem exponent?_of_mem {e : List Char} (he : e ∈ Literal.exponent) : exponent? e = some [] := by
  obtain ⟨c, hc, t, ht, rfl⟩ := mem_oneOf_mul.1 he
  have hc : c = 'e' ∨ c = 'E' := by simpa using hc
  rcases mem_optional_mul.1 ht with ⟨hne, hds⟩ | ht
  · cases t with
    | nil => exact absurd rfl hne
    | cons d ds =>
      have hd := hds d (by simp)
      have hs : ¬ (d = '+' ∨ d = '-') := by
        rintro (rfl | rfl) <;> exact absurd hd (by decide)
      have hdrop : ds.dropWhile Char.isDigit = [] :=
        List.dropWhile_eq_nil_iff.2 fun c hc => hds c (by simp [hc])
      simp only [exponent?, hc, hs, hd, hdrop, ↓reduceIte]
  · obtain ⟨s, hs, ds, ⟨hne, hds⟩, rfl⟩ := mem_oneOf_mul.1 ht
    have hs : s = '+' ∨ s = '-' := by simpa using hs
    cases ds with
    | nil => exact absurd rfl hne
    | cons d ds =>
      have hdrop : ds.dropWhile Char.isDigit = [] :=
        List.dropWhile_eq_nil_iff.2 fun c hc => hds c (by simp [hc])
      simp only [exponent?, hc, hs, hds d (by simp), hdrop, ↓reduceIte]

/-- An exponent starts with its mark. -/
theorem head_of_exponent {e : List Char} (he : e ∈ Literal.exponent) :
    ∃ c t, e = c :: t ∧ (c = 'e' ∨ c = 'E') := by
  obtain ⟨c, hc, t, -, rfl⟩ := mem_oneOf_mul.1 he
  exact ⟨c, t, rfl, by simpa using hc⟩

end Lexeme

end ListQuery.Filter
