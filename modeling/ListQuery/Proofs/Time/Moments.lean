/-
Every timestamp token is a moment. What a written timestamp means is said part by part
(`Timestamp.Parts.Mean`): its date has a number among the days, its fraction counts as nanoseconds
once it is filled up to nine digits, and its zone is an offset in seconds. The texts that are cut
as timestamps are so written (`exists_spells_of_mem`), and reading such a text gives the moment that
it means (`parse?_of_spells`).

Two readers take part, one that cuts texts and one that reads moments. They are not compared with
each other, but both with the written parts.
-/
import ListQuery.Filter.Resolve.Value
import ListQuery.Proofs.Resolve.Typing
import ListQuery.Proofs.Text.Digits
import ListQuery.Proofs.Time.Agree
import ListQuery.Proofs.Time.Calendar
import ListQuery.Proofs.Token.Classify

namespace ListQuery.Time.Timestamp

open Text ListQuery.Filter.Literal

/-- The fraction of a second: nothing, or one to nine digits behind a point. With zeros behind them
to make nine they are nanoseconds. -/
inductive FractionMeans : List Char → Nat → Prop
  | nothing : FractionMeans [] 0
  | digits {ds : List Char} : ds ∈ upToNine →
    FractionMeans ('.' :: ds) (ofDigits 10 (ds ++ List.replicate (9 - ds.length) '0'))

/-- The zone: universal time, or hours and minutes that local time is ahead of it or behind. -/
inductive ZoneMeans : List Char → Int → Prop
  | universal {c : Char} : c = 'Z' ∨ c = 'z' → ZoneMeans [c] 0
  | ahead {h m : List Char} : h ∈ between 0 23 → m ∈ between 0 59 →
    ZoneMeans ('+' :: (h ++ ':' :: m)) (3600 * ofDigits 10 h + 60 * ofDigits 10 m)
  | behind {h m : List Char} : h ∈ between 0 23 → m ∈ between 0 59 →
    ZoneMeans ('-' :: (h ++ ':' :: m)) (-(3600 * ofDigits 10 h + 60 * ofDigits 10 m))

/-- The parts of a written timestamp. -/
structure Parts where
  year : List Char
  month : List Char
  day : List Char
  /-- Stands between date and time. -/
  mark : Char
  hour : List Char
  minute : List Char
  second : List Char
  fraction : List Char
  zone : List Char

namespace Parts

/-- The text of the parts, one behind the other. -/
def text (p : Parts) : List Char :=
  p.year ++ '-' :: (p.month ++ '-' :: (p.day ++ p.mark :: (p.hour ++ ':' :: (p.minute ++ ':' ::
    (p.second ++ (p.fraction ++ p.zone))))))

/-- The date that the first three parts write. -/
def date (p : Parts) : Date := ⟨ofDigits 10 p.year, ofDigits 10 p.month, ofDigits 10 p.day⟩

/-- The parts are written as they should be, and mean this moment. -/
structure Mean (p : Parts) (t : Timestamp) : Prop where
  year : p.year ∈ width 4
  month : p.month ∈ width 2
  day : p.day ∈ width 2
  mark : p.mark = 'T' ∨ p.mark = 't'
  hour : p.hour ∈ between 0 23
  minute : p.minute ∈ between 0 59
  second : p.second ∈ between 0 59
  nanos : FractionMeans p.fraction t.nanos
  offset : ZoneMeans p.zone t.offset
  seconds : ∃ n, p.date.Numbered n ∧ t.seconds =
    86400 * n + 3600 * ofDigits 10 p.hour + 60 * ofDigits 10 p.minute + ofDigits 10 p.second -
      t.offset

end Parts

/-- The text is a written timestamp that means this moment. -/
def Spells (text : String) (t : Timestamp) : Prop :=
  ∃ p : Parts, text.toList = p.text ∧ p.Mean t

theorem exists_zoneMeans {z : List Char} (h : z ∈ zone) : ∃ offset, ZoneMeans z offset := by
  rcases h with ⟨c, hc, rfl⟩ | h
  · exact ⟨0, .universal (by simpa using hc)⟩
  · obtain ⟨c, hc, t, ht, rfl⟩ := mem_oneOf_mul.1 h
    obtain ⟨hour, hhour, u, hu, rfl⟩ := Language.mem_mul.1 ht
    obtain ⟨colon, hcolon, minute, hminute, rfl⟩ := mem_oneOf_mul.1 hu
    obtain rfl : colon = ':' := by simpa using hcolon
    rcases (show c = '+' ∨ c = '-' by simpa using hc) with rfl | rfl
    · exact ⟨_, .ahead hhour hminute⟩
    · exact ⟨_, .behind hhour hminute⟩

theorem exists_fractionMeans {w : List Char} (h : w ∈ optional (oneOf "." * upToNine) * zone) :
    ∃ f nanos z, w = f ++ z ∧ FractionMeans f nanos ∧ z ∈ zone := by
  rcases mem_optional_mul.1 h with h | h
  · exact ⟨[], 0, w, rfl, .nothing, h⟩
  · obtain ⟨f, hf, z, hz, rfl⟩ := Language.mem_mul.1 h
    obtain ⟨c, hc, ds, hds, rfl⟩ := mem_oneOf_mul.1 hf
    obtain rfl : c = '.' := by simpa using hc
    exact ⟨_, _, z, rfl, .digits hds, hz⟩

theorem exists_spells_of_mem {text : String} (h : text.toList ∈ timestamp) :
    ∃ t, Spells text t := by
  obtain ⟨_, ⟨y, hy, mo, hmo, d, hd, rfl, hvalid⟩, u, hu, htext⟩ := Language.mem_mul.1 h
  obtain ⟨mark, hmark, v, hv, rfl⟩ := mem_oneOf_mul.1 hu
  obtain ⟨_, htime, w, hw, rfl⟩ := Language.mem_mul.1 hv
  obtain ⟨hour, hhour, a, ha, rfl⟩ := Language.mem_mul.1 htime
  obtain ⟨colon, hcolon, b, hb, rfl⟩ := mem_oneOf_mul.1 ha
  obtain rfl : colon = ':' := by simpa using hcolon
  obtain ⟨minute, hminute, c, hc, rfl⟩ := Language.mem_mul.1 hb
  obtain ⟨colon, hcolon, second, hsecond, rfl⟩ := mem_oneOf_mul.1 hc
  obtain rfl : colon = ':' := by simpa using hcolon
  obtain ⟨f, nanos, z, rfl, hf, hz⟩ := exists_fractionMeans hw
  obtain ⟨offset, hoffset⟩ := exists_zoneMeans hz
  let p : Parts := ⟨y, mo, d, mark, hour, minute, second, f, z⟩
  let seconds : Int := 86400 * p.date.toDays + 3600 * ofDigits 10 hour + 60 * ofDigits 10 minute +
    ofDigits 10 second - offset
  refine ⟨⟨seconds, nanos, offset⟩, p, ?_, ?_⟩
  · rw [← htext]
    simp [p, Parts.text]
  · exact ⟨hy, hmo, hd, by simpa using hmark, hhour, hminute, hsecond, hf, hoffset,
      p.date.toDays, Date.numbered_iff.2 ⟨hvalid, rfl⟩, rfl⟩

/-! ## Such a text is read as the moment that it means -/

namespace Reader

theorem pure_apply {α : Type} (a : α) (cs : List Char) : (pure a : Reader α) cs = some (a, cs) :=
  rfl

theorem bind_of_eq {α β : Type} {p : Reader α} {q : α → Reader β} {cs r : List Char} {a : α}
    (h : p cs = some (a, r)) : (p >>= q) cs = q a r := by
  show (p cs).bind _ = _
  rw [h]
  rfl

theorem number_append {n : Nat} {w : List Char} (h : w ∈ width n) (r : List Char) :
    number n (w ++ r) = some (ofDigits 10 w, r) := by
  obtain ⟨rfl, hw⟩ := h
  simp [number, List.all_eq_true.2 hw]

theorem upTo_append {low high high' : Nat} {w : List Char} (h : w ∈ between low high)
    (hle : high ≤ high') (r : List Char) : upTo high' (w ++ r) = some (ofDigits 10 w, r) := by
  obtain ⟨hw, -, hn⟩ := h
  rw [upTo, bind_of_eq (number_append hw r), if_pos (Nat.le_trans hn hle)]
  rfl

theorem oneOf_cons {accept : Char → Bool} {c : Char} (h : accept c = true) (r : List Char) :
    oneOf accept (c :: r) = some (c, r) := by
  simp [oneOf, h]

theorem mark_cons (c : Char) (r : List Char) : mark c (c :: r) = some ((), r) := by
  rw [mark, bind_of_eq (oneOf_cons (by simp) r)]
  rfl

/-- Nine digits at most are kept, so none is dropped. -/
theorem fraction_append {f : List Char} {nanos : Nat} (h : FractionMeans f nanos) {r : List Char}
    (hr : ∃ c t, r = c :: t ∧ c.isDigit = false ∧ c ≠ '.') :
    fraction (f ++ r) = some (nanos, r) := by
  obtain ⟨c, t, rfl, hc, hp⟩ := hr
  cases h with
  | nothing => simp [fraction, hp]
  | @digits ds hds =>
    obtain ⟨⟨hne, hdigits⟩, hlen⟩ := hds
    obtain ⟨htake, hdrop⟩ := Duration.takeWhile_digits hdigits ⟨c, t, rfl, hc⟩
    cases ds with
    | nil => exact absurd rfl hne
    | cons d ds =>
      simp only [List.cons_append, fraction] at htake hdrop ⊢
      rw [htake, hdrop]
      simp only [List.take_of_length_le hlen]
      rw [← List.cons_append, ofDigits_append_zeros]
      rfl

theorem zone_append {z : List Char} {offset : Int} (h : ZoneMeans z offset) (r : List Char) :
    zone (z ++ r) = some (offset, r) := by
  cases h with
  | universal hc =>
    rcases hc with rfl | rfl <;> rfl
  | ahead hh hm =>
    rw [List.cons_append, List.append_assoc, List.cons_append, zone,
      bind_of_eq (oneOf_cons (by decide) _), if_neg (by decide),
      bind_of_eq (upTo_append hh (Nat.le_refl _) _), bind_of_eq (mark_cons ':' _),
      bind_of_eq (upTo_append hm (Nat.le_refl _) r)]
    simp [Int.mul_comm, pure_apply]
  | behind hh hm =>
    rw [List.cons_append, List.append_assoc, List.cons_append, zone,
      bind_of_eq (oneOf_cons (by decide) _), if_neg (by decide),
      bind_of_eq (upTo_append hh (Nat.le_refl _) _), bind_of_eq (mark_cons ':' _),
      bind_of_eq (upTo_append hm (Nat.le_refl _) r)]
    simp [Int.mul_comm, pure_apply]

/-- The zone behind the fraction starts with neither a digit nor a point. -/
theorem head_of_zoneMeans {z : List Char} {offset : Int} (h : ZoneMeans z offset) :
    ∃ c t, z = c :: t ∧ c.isDigit = false ∧ c ≠ '.' := by
  cases h with
  | universal hc => rcases hc with rfl | rfl <;> exact ⟨_, _, rfl, by decide, by decide⟩
  | ahead => exact ⟨_, _, rfl, by decide, by decide⟩
  | behind => exact ⟨_, _, rfl, by decide, by decide⟩

theorem date_append {y m d : List Char} (hy : y ∈ width 4) (hm : m ∈ width 2) (hd : d ∈ width 2)
    (hvalid : Date.Valid ⟨ofDigits 10 y, ofDigits 10 m, ofDigits 10 d⟩) (r : List Char) :
    date (y ++ '-' :: (m ++ '-' :: (d ++ r))) =
      some (⟨ofDigits 10 y, ofDigits 10 m, ofDigits 10 d⟩, r) := by
  rw [date, bind_of_eq (number_append hy _), bind_of_eq (mark_cons '-' _),
    bind_of_eq (number_append hm _), bind_of_eq (mark_cons '-' _),
    bind_of_eq (number_append hd r)]
  simp only [if_pos hvalid]
  rfl

end Reader

theorem parse?_of_spells {text : String} {t : Timestamp} (h : Spells text t) :
    parse? text = some t := by
  obtain ⟨p, htext, hp⟩ := h
  obtain ⟨n, hn, hseconds⟩ := hp.seconds
  obtain ⟨hvalid, rfl⟩ := Date.numbered_iff.1 hn
  have hzone := Reader.zone_append hp.offset []
  rw [List.append_nil] at hzone
  -- no written second is the 60th, so none is a leap second
  have hleap : ofDigits 10 p.second ≠ 60 := fun h60 => by
    have := hp.second.2.2
    omega
  have hread : Reader.timestamp p.text = some (t, []) := by
    rw [Parts.text, Reader.timestamp,
      Reader.bind_of_eq (Reader.date_append hp.year hp.month hp.day hvalid _),
      Reader.bind_of_eq (Reader.oneOf_cons (by rcases hp.mark with h | h <;> simp [h]) _),
      Reader.bind_of_eq (Reader.upTo_append hp.hour (Nat.le_refl _) _),
      Reader.bind_of_eq (Reader.mark_cons ':' _),
      Reader.bind_of_eq (Reader.upTo_append hp.minute (Nat.le_refl _) _),
      Reader.bind_of_eq (Reader.mark_cons ':' _),
      Reader.bind_of_eq (Reader.upTo_append hp.second (by decide) _),
      Reader.bind_of_eq (Reader.fraction_append hp.nanos (Reader.head_of_zoneMeans hp.offset)),
      Reader.bind_of_eq hzone]
    obtain ⟨seconds, nanos, offset⟩ := t
    simp only at hseconds
    simp only [if_neg hleap, Reader.pure_apply, hseconds, secondsPerDay, Parts.date]
    congr 4
    push_cast
    omega
  rw [parse?, htext, hread]

end ListQuery.Time.Timestamp

namespace ListQuery.Filter

open Time

theorem Token.timestamp_spells {input : String} {t : Token} (ht : t ∈ tokenize input)
    (hk : t.kind = .timestamp) : ∃ moment, Timestamp.Spells t.text moment := by
  have hmem := Token.text_mem_texts ht (by rw [hk]; rfl) (by rw [hk]; rfl) (by rw [hk]; rfl)
  rw [hk] at hmem
  exact Timestamp.exists_spells_of_mem hmem

namespace Resolver

/-- A bare timestamp as a value of a timestamp field, wherever one level of nesting is left. -/
theorem comparableValue_timestamp {r : Resolver} {f : Field}
    (hf : r.schema.wellKnownOf? f = some .timestamp) {m : Member} (hk : m.value.kind = .timestamp)
    (hm : m.fields = []) {moment : Timestamp} (hp : Timestamp.parse? m.value.raw = some moment)
    (levels : Nat) (mode : ValueMode) :
    r.comparableValue (levels + 1) f (.member m) mode = pure (.value (.timestamp moment)) := by
  have hraw : m.value.unquoted = m.value.raw := if_neg (by rw [hk]; decide)
  funext s
  simp [comparableValue, comparableBody, hf, memberValue, hk, not_isMap_of_wellKnownOf? hf,
    timestampValue, noFields, hm, hraw, hp]

end Resolver

/-- Every timestamp token is a moment: its text is read as the moment that it means, and as a value
of a timestamp field it is that moment, unless a field is asked of it. -/
theorem Lexer.timestamps_resolve (input : String) :
    ∀ t ∈ (Lexer.ofString input).tokenize, t.kind = .timestamp →
      ∃ moment, Timestamp.Spells t.text moment ∧ Timestamp.parse? t.text = some moment ∧
        ∀ (r : Resolver) (f : Field), r.schema.wellKnownOf? f = some .timestamp →
          ∀ m : Member, m.value.token = t → m.fields = [] →
            ∀ (levels : Nat) (mode : ValueMode) (reports : List (Report ValueCause)),
              r.comparableValue (levels + 1) f (.member m) mode reports =
                .ok (.value (.timestamp moment)) reports := by
  intro t ht hk
  rw [tokenize_ofString] at ht
  obtain ⟨moment, hmoment⟩ := Token.timestamp_spells ht hk
  have hparse := Timestamp.parse?_of_spells hmoment
  refine ⟨moment, hmoment, hparse, ?_⟩
  intro r f hf m hm hfields levels mode reports
  have hkind : m.value.kind = .timestamp := by rw [Leaf.kind, hm, hk]
  have hraw : Timestamp.parse? m.value.raw = some moment := by rw [Leaf.raw, hm, hparse]
  rw [Resolver.comparableValue_timestamp hf hkind hfields hraw]
  rfl

/-- The leap day of the year zero in the zone that is farthest behind. -/
theorem Lexer.leap_day_resolves :
    let text := "0000-02-29t23:59:59.5-23:59"
    let t : Token := ⟨.timestamp, text, .start⟩
    let r : Resolver := ⟨⟨Schema.wellKnownMessages, []⟩, Schema.instant .timestamp, {}⟩
    let f := Field.ofMessage "at" WellKnown.timestamp.fullName
    t ∈ (Lexer.ofString text).tokenize ∧ r.schema.wellKnownOf? f = some .timestamp ∧
      ∃ moment, Timestamp.Spells text moment ∧ Timestamp.parse? text = some moment ∧
        r.comparableValue 1 f (.member ⟨⟨.start, t.stop⟩, ⟨t, rfl⟩, []⟩) .direct [] =
          .ok (.value (.timestamp moment)) [] := by
  intro text t r f
  have hlexes : Piece.Lexes ⟨.timestamp, text⟩ [] :=
    ⟨'0', "000-02-29t23:59:59.5-23:59".toList, by simp [text], by decide⟩
  have ht : t ∈ (Lexer.ofString text).tokenize := by
    rw [Lexer.tokenize_single_iff.2 hlexes]
    exact List.mem_cons_self
  have hf : r.schema.wellKnownOf? f = some .timestamp := by decide
  obtain ⟨moment, hspells, hparse, hvalue⟩ := Lexer.timestamps_resolve text t ht rfl
  exact ⟨ht, hf, moment, hspells, hparse, hvalue r f hf _ rfl rfl 0 .direct []⟩

end ListQuery.Filter
