/-
Number-like literals are classified exactly. What stands behind the sign is read to its end as a
kind exactly when it is in the language of the kind (`mem_of_number`, `number_of_mem`). The six
languages need not be shown apart from each other: a text is read as one kind only.

`Lexer.scan_literal_iff` is the statement for a text that something follows. A literal reads the
same before any text that cannot continue it, so nothing that follows matters.
-/
import ListQuery.Filter.Lexer
import ListQuery.Proofs.Token.Literals
import ListQuery.Proofs.Token.Number

namespace ListQuery.Filter

open Text Time Literal

namespace Lexeme

theorem runKind_eq_oct_iff {d : Char} {ds : List Char} :
    runKind (d :: ds) = .oct ↔ d :: ds ∈ oneOf "0" * run isOctalDigit := by
  rw [mem_oneOf_mul]
  unfold runKind
  constructor
  · intro h
    split at h
    · rename_i hcond
      obtain ⟨hlen, hhead, hall⟩ := hcond
      obtain rfl : d = '0' := by simpa using hhead
      simp only [List.all_cons, Bool.and_eq_true, List.all_eq_true] at hall
      refine ⟨'0', by simp, ds, ⟨?_, hall.2⟩, rfl⟩
      rintro rfl
      exact absurd hlen (by decide)
    · cases h
  · rintro ⟨c, hc, t, ⟨hne, hall⟩, he⟩
    obtain rfl : c = '0' := by simpa using hc
    cases he
    have hlen : 1 < ('0' :: ds).length := by
      simpa using Nat.pos_of_ne_zero (by simpa using hne)
    have hoct : ('0' :: ds).all isOctalDigit = true := by
      simpa using ⟨by decide, hall⟩
    rw [if_pos ⟨hlen, rfl, hoct⟩]

theorem runKind_cases (ds : List Char) : runKind ds = .oct ∨ runKind ds = .int := by
  unfold runKind
  split
  · exact .inl rfl
  · exact .inr rfl

/-- What a number can be that takes the whole text. -/
theorem decimal_cases {ds x : List Char} {k : Kind} (h : decimal ds x = (k, []))
    (hk : k.isIllegal = false) :
    k = .duration ∨ (k = runKind ds ∧ x = []) ∨ (k = .numeric ∧ x ∈ Literal.scale) := by
  simp only [decimal] at h
  split at h
  · split at h
    · exact (not_illegal h hk).elim
    · exact .inl (duration_kind h hk)
  split at h
  · exact (not_illegal h hk).elim
  obtain ⟨hkind, hrest⟩ := Prod.mk.inj h
  -- A fraction and an exponent, each if it is there, are all that stands behind the digits.
  cases hf : fraction? x with
  | none =>
    simp only [hf, Option.getD_none, Option.isSome_none, Bool.false_or] at hkind hrest
    cases he : exponent? x with
    | none =>
      simp only [he, Option.isSome_none, Bool.false_eq_true, ↓reduceIte, Option.getD_none]
        at hkind hrest
      exact .inr (.inl ⟨hkind.symm, hrest⟩)
    | some r =>
      simp only [he, Option.isSome_some, ↓reduceIte, Option.getD_some] at hkind hrest
      obtain ⟨e, hmem, rfl⟩ := mem_exponent_of_exponent? he
      rw [hrest, List.append_nil]
      exact .inr (.inr ⟨hkind.symm, .inr hmem⟩)
  | some y =>
    simp only [hf, Option.getD_some, Option.isSome_some, Bool.true_or, ↓reduceIte] at hkind hrest
    obtain ⟨f, hfmem, rfl⟩ := mem_fraction_of_fraction? hf
    refine .inr (.inr ⟨hkind.symm, .inl (Language.append_mem_mul hfmem ?_)⟩)
    cases he : exponent? y with
    | none =>
      rw [he] at hrest
      exact .inl hrest
    | some r =>
      simp only [he, Option.getD_some] at hrest
      obtain ⟨e, hmem, rfl⟩ := mem_exponent_of_exponent? he
      rw [hrest, List.append_nil]
      exact .inr hmem

theorem decimal_scale {ds x : List Char} (hx : x ∈ Literal.scale) :
    decimal ds x = (.numeric, []) := by
  have hread : TimeUnit.read? [] = none := rfl
  rcases hx with hx | he
  · obtain ⟨f, hf, e, he, rfl⟩ := Language.mem_mul.1 hx
    rcases he with he | he
    · obtain rfl : e = [] := he
      have hfrac := fraction?_of_mem (r := []) hf (by simp)
      rw [List.append_nil] at hfrac ⊢
      simp [decimal, hfrac, exponent?, hread, startsWord]
    · have hfrac := fraction?_of_mem (r := e) hf (by
        obtain ⟨c, t, rfl, rfl | rfl⟩ := head_of_exponent he <;> simp)
      simp [decimal, hfrac, exponent?_of_mem he, hread, startsWord]
  · have hfrac : fraction? x = none := by
      obtain ⟨c, t, rfl, rfl | rfl⟩ := head_of_exponent he <;> rfl
    simp [decimal, hfrac, exponent?_of_mem he, hread, startsWord]

/-- A scale starts with a point or the mark of an exponent. -/
theorem head_of_scale {x : List Char} (hx : x ∈ Literal.scale) :
    ∃ c t, x = c :: t ∧ (c = '.' ∨ c = 'e' ∨ c = 'E') := by
  rcases hx with hx | he
  · obtain ⟨f, hf, e, -, rfl⟩ := Language.mem_mul.1 hx
    obtain ⟨c, hc, t, -, rfl⟩ := mem_oneOf_mul.1 hf
    exact ⟨c, t ++ e, rfl, .inl (by simpa using hc)⟩
  · obtain ⟨c, t, rfl, hc⟩ := head_of_exponent he
    exact ⟨c, t, rfl, .inr hc⟩

end Lexeme

/-! ## Literals without a sign -/

namespace Literal

/-- What each kind of literal has behind its sign. -/
def unsigned : Kind → Language Char
  | .hex => hexadecimal
  | .oct => octal
  | .int => digits - octal
  | .numeric => digits * scale
  | .duration => components
  | .timestamp => timestamp
  | _ => 0

theorem head_of_digits {w : List Char} (h : w ∈ digits) :
    ∃ d t, w = d :: t ∧ d.isDigit = true := by
  cases w with
  | nil => exact absurd rfl h.1
  | cons d t => exact ⟨d, t, rfl, h.2 d (by simp)⟩

theorem head_of_zero {l : Language Char} {w : List Char} (h : w ∈ oneOf "0" * l) :
    ∃ d t, w = d :: t ∧ d.isDigit = true := by
  obtain ⟨d, hd, t, -, rfl⟩ := mem_oneOf_mul.1 h
  obtain rfl : d = '0' := by simpa using hd
  exact ⟨'0', t, rfl, by decide⟩

/-- All literals start with a digit behind their sign. -/
theorem head_of_unsigned {k : Kind} {w : List Char} (h : w ∈ unsigned k) :
    ∃ d t, w = d :: t ∧ d.isDigit = true := by
  cases k
  case hex => exact head_of_zero h
  case oct => exact h.elim head_of_zero head_of_zero
  case int => exact head_of_digits h.1
  case numeric =>
    obtain ⟨a, ha, b, -, rfl⟩ := Language.mem_mul.1 h
    obtain ⟨d, t, rfl, hd⟩ := head_of_digits ha
    exact ⟨d, t ++ b, rfl, hd⟩
  case duration =>
    obtain ⟨cs, hne, hw, -⟩ := h
    exact hw.cons_of_ne_nil hne
  case timestamp =>
    obtain ⟨y, ⟨hlen, hy⟩, t, -, rfl⟩ := Lexeme.mem_timestamp_iff.1 h
    obtain ⟨d, ds, rfl⟩ := List.exists_cons_of_length_eq_add_one hlen
    exact ⟨d, ds ++ '-' :: t, rfl, hy d (by simp)⟩
  all_goals exact h.elim

/-- A sign is read off in one way before words that start with a digit. -/
theorem signed_mem_iff {l : Language Char} (hl : ∀ w ∈ l, ∃ d t, w = d :: t ∧ d.isDigit = true)
    {negative : Bool} {d : Char} (hd : d.isDigit = true) {t : List Char} :
    Lexeme.signed negative (d :: t) ∈ sign * l ↔ d :: t ∈ l := by
  rw [sign, mem_optional_mul, mem_oneOf_mul]
  cases negative with
  | false =>
    refine ⟨?_, .inl⟩
    rintro (h | ⟨c, hc, v, -, he⟩)
    · exact h
    · obtain rfl : c = '-' := by simpa using hc
      cases he
      exact absurd hd (by decide)
  | true =>
    constructor
    · rintro (h | ⟨c, -, v, hv, he⟩)
      · obtain ⟨d', t', he, hd'⟩ := hl _ h
        cases he
        exact absurd hd' (by decide)
      · cases he
        exact hv
    · exact fun h => .inr ⟨'-', by simp, _, h, rfl⟩

theorem exists_signed {l : Language Char} (hl : ∀ w ∈ l, ∃ d t, w = d :: t ∧ d.isDigit = true)
    {w : List Char} (hw : w ∈ sign * l) :
    ∃ negative d t, w = Lexeme.signed negative (d :: t) ∧ d.isDigit = true ∧ d :: t ∈ l := by
  rw [sign, mem_optional_mul, mem_oneOf_mul] at hw
  rcases hw with hw | ⟨c, hc, v, hv, rfl⟩
  · obtain ⟨d, t, rfl, hd⟩ := hl _ hw
    exact ⟨false, d, t, rfl, hd, hw⟩
  · obtain rfl : c = '-' := by simpa using hc
    obtain ⟨d, t, rfl, hd⟩ := hl _ hv
    exact ⟨true, d, t, rfl, hd, hv⟩

theorem int_eq : int = sign * unsigned .int := by
  have hoct : ∀ w ∈ octal, ∃ d t, w = d :: t ∧ d.isDigit = true := fun w hw =>
    head_of_unsigned (k := .oct) hw
  have hint : ∀ w ∈ unsigned .int, ∃ d t, w = d :: t ∧ d.isDigit = true := fun w hw =>
    head_of_unsigned hw
  ext w
  constructor
  · rintro ⟨hw, hnot⟩
    obtain ⟨negative, d, t, rfl, hd, hmem⟩ := exists_signed (fun _ => head_of_digits) hw
    exact (signed_mem_iff hint hd).2 ⟨hmem, fun h => hnot ((signed_mem_iff hoct hd).2 h)⟩
  · intro hw
    obtain ⟨negative, d, t, rfl, hd, hmem, hnot⟩ := exists_signed hint hw
    exact ⟨(signed_mem_iff (fun _ => head_of_digits) hd).2 hmem,
      fun h => hnot ((signed_mem_iff hoct hd).1 h)⟩

theorem texts_eq {k : Kind} (hk : k ≠ .timestamp) : texts k = sign * unsigned k := by
  cases k
  case int => exact int_eq
  case timestamp => exact absurd rfl hk
  case hex => rfl
  case oct => rfl
  case numeric => rfl
  case duration => rfl
  all_goals exact (mul_zero sign).symm

end Literal

namespace Lexeme

/-- Digits in another base behind a zero and a mark. -/
theorem mem_marked_iff {marks : String} {p : Char → Bool} {d : Char} {cs : List Char} :
    d :: cs ∈ oneOf "0" * (oneOf marks * run p) ↔
      ∃ m t, d = '0' ∧ m ∈ marks.toList ∧ cs = m :: t ∧ t ∈ run p := by
  simp only [mem_oneOf_mul]
  constructor
  · rintro ⟨c, hc, _, ⟨m, hm, t, ht, rfl⟩, he⟩
    cases he
    exact ⟨m, t, by simpa using hc, hm, rfl, ht⟩
  · rintro ⟨m, t, rfl, hm, rfl, ht⟩
    exact ⟨'0', by simp, _, ⟨m, hm, t, ht, rfl⟩, rfl⟩

/-- Among runs of digits the octal ones are told by their kind. -/
theorem octal_digits {d : Char} {ds : List Char} (hds : ∀ c ∈ d :: ds, c.isDigit = true) :
    d :: ds ∈ octal ↔ runKind (d :: ds) = .oct := by
  rw [runKind_eq_oct_iff]
  refine ⟨?_, .inr⟩
  rintro (h | h)
  · obtain ⟨m, t, -, hm, rfl, -⟩ := mem_marked_iff.1 h
    have hd : m.isDigit = true := hds m (by simp)
    rcases (show m = 'o' ∨ m = 'O' by simpa using hm) with rfl | rfl <;>
      exact absurd hd (by decide)
  · exact h

theorem not_isRadixMark {c : Char} (h : c.isDigit = true) : ¬ isRadixMark c := by
  rintro (rfl | rfl | rfl | rfl) <;> exact absurd h (by decide)

theorem head_not_isRadixMark {ds x : List Char} (hds : ∀ c ∈ ds, c.isDigit = true)
    (hx : ∀ c ∈ x.head?, ¬ isRadixMark c) : ∀ c ∈ (ds ++ x).head?, ¬ isRadixMark c := by
  cases ds with
  | nil => exact hx
  | cons a ds => simpa using not_isRadixMark (hds a (by simp))

/-- Digits alone. -/
theorem number_digits {negative : Bool} {d : Char} {ds : List Char}
    (hds : ∀ c ∈ ds, c.isDigit = true) : number negative d ds = (runKind (d :: ds), []) := by
  have hplain := @number_plain negative d ds [] hds (by simp)
    fun _ => head_not_isRadixMark hds (by simp)
  rw [List.append_nil] at hplain
  rw [hplain]
  rfl

/-- Digits with a fraction or an exponent. -/
theorem number_scale {negative : Bool} {d : Char} {ds x : List Char}
    (hds : ∀ c ∈ ds, c.isDigit = true) (hx : x ∈ scale) :
    number negative d (ds ++ x) = (.numeric, []) := by
  obtain ⟨c, t, hct, hc⟩ := head_of_scale hx
  have hhead : c.isDigit = false ∧ ¬ isRadixMark c ∧ c ≠ '-' := by
    rcases hc with rfl | rfl | rfl <;> simp [isRadixMark]
  have hplain := @number_plain negative d ds x hds
    (by simp [hct, hhead.1]) fun _ => head_not_isRadixMark hds (by simp [hct, hhead.2.1])
  rw [hplain, if_neg (by simp [hct, hhead.2.2]), decimal_scale hx]

/-- Four digits and a dash start a timestamp. -/
theorem number_year {d : Char} {ds t : List Char} (hds : ∀ c ∈ ds, c.isDigit = true)
    (hlen : ds.length = 3) :
    number false d (ds ++ '-' :: t) = Lexeme.timestamp (ofDigits 10 (d :: ds)) t := by
  have hplain := @number_plain false d ds ('-' :: t) hds (by simp)
    fun _ => head_not_isRadixMark hds (by simp [isRadixMark])
  rw [hplain, if_pos ⟨rfl, by simp [hlen]⟩]
  rfl

theorem isDigit_of_isOctalDigit {c : Char} (h : isOctalDigit c = true) : c.isDigit = true := by
  simp only [isOctalDigit, Bool.and_eq_true, decide_eq_true_eq] at h
  simp only [Char.isDigit, Bool.and_eq_true, decide_eq_true_eq]
  exact ⟨h.1, Char.le_trans h.2 (by decide)⟩

theorem mem_components_iff {d : Char} {cs : List Char} :
    d :: cs ∈ components ↔ (Duration.components? none (d :: cs)).isSome = true := by
  rw [Option.isSome_iff_exists]
  constructor
  · rintro ⟨l, -, h⟩
    exact ⟨l, Duration.components?_eq_some_iff.2 h⟩
  · rintro ⟨l, h⟩
    obtain ⟨hw, ho⟩ := Duration.components?_eq_some_iff.1 h
    refine ⟨l, ?_, hw, ho⟩
    rintro rfl
    cases hw

/-- A number that takes the whole text belongs to the language of its kind. -/
theorem mem_of_number {negative : Bool} {d : Char} (hd : d.isDigit = true) {cs : List Char}
    {k : Kind} (h : number negative d cs = (k, [])) (hk : k.isIllegal = false) :
    d :: cs ∈ unsigned k ∧ (k = .timestamp → negative = false) := by
  rcases number_cases negative d cs with
    ⟨m, t, rfl, hm, rfl, hn⟩ | ⟨m, t, rfl, hm, rfl, hn⟩ | ⟨ds, t, rfl, hds, hlen, hpos, hn⟩ |
      ⟨ds, x, rfl, hds, hx, hn⟩
  · rw [hn, radix_eq_iff hk] at h
    obtain ⟨rfl, hrun⟩ := h
    exact ⟨mem_marked_iff.2 ⟨m, t, rfl, by simpa using hm, rfl, hrun⟩, Kind.noConfusion⟩
  · rw [hn, radix_eq_iff hk] at h
    obtain ⟨rfl, hrun⟩ := h
    exact ⟨.inl (mem_marked_iff.2 ⟨m, t, rfl, by simpa using hm, rfl, hrun⟩), Kind.noConfusion⟩
  · rw [hn] at h
    obtain rfl := timestamp_kind h hk
    refine ⟨mem_timestamp_iff.2 ⟨d :: ds, ⟨by simp [hlen], ?_⟩, t, timestamp_eq_iff.1 h, rfl⟩,
      fun _ => hpos⟩
    simpa [hd] using hds
  · have hdigits : d :: ds ∈ digits := ⟨by simp, by simpa [hd] using hds⟩
    rcases decimal_cases (hn ▸ h) hk with rfl | ⟨rfl, rfl⟩ | ⟨rfl, hscale⟩
    · exact ⟨mem_components_iff.2 ((number_eq_duration_iff hd _).1 h), Kind.noConfusion⟩
    · rw [List.append_nil]
      rcases runKind_cases (d :: ds) with hrun | hrun
      · rw [hrun]
        exact ⟨(octal_digits hdigits.2).2 hrun, Kind.noConfusion⟩
      · rw [hrun]
        refine ⟨⟨hdigits, fun hoct => ?_⟩, Kind.noConfusion⟩
        rw [(octal_digits hdigits.2).1 hoct] at hrun
        cases hrun
    · exact ⟨Language.append_mem_mul hdigits hscale, Kind.noConfusion⟩

/-- A text of the language of a kind is read to its end as that kind. -/
theorem number_of_mem {negative : Bool} {d : Char} (hd : d.isDigit = true) {cs : List Char}
    {k : Kind} (h : d :: cs ∈ unsigned k) (ht : k = .timestamp → negative = false) :
    number negative d cs = (k, []) := by
  cases k
  case hex =>
    obtain ⟨m, t, rfl, hm, rfl, hrun⟩ := mem_marked_iff.1 h
    have hradix : radix .hex isHexDigit t = (.hex, []) := (radix_eq_iff rfl).2 ⟨rfl, hrun⟩
    rcases (show m = 'x' ∨ m = 'X' by simpa using hm) with rfl | rfl <;> exact hradix
  case oct =>
    rcases h with h | h
    · obtain ⟨m, t, rfl, hm, rfl, hrun⟩ := mem_marked_iff.1 h
      have hradix : radix .oct isOctalDigit t = (.oct, []) := (radix_eq_iff rfl).2 ⟨rfl, hrun⟩
      rcases (show m = 'o' ∨ m = 'O' by simpa using hm) with rfl | rfl <;> exact hradix
    · obtain ⟨c, hc, t, ⟨-, hrun⟩, he⟩ := mem_oneOf_mul.1 h
      cases he
      rw [number_digits fun c hc => isDigit_of_isOctalDigit (hrun c hc), runKind_eq_oct_iff.2 h]
  case int =>
    obtain ⟨⟨-, hall⟩, hnot⟩ := h
    rw [number_digits fun c hc => hall c (List.mem_cons_of_mem d hc)]
    rcases runKind_cases (d :: cs) with hrun | hrun
    · exact absurd ((octal_digits hall).2 hrun) hnot
    · rw [hrun]
  case numeric =>
    obtain ⟨a, ha, x, hx, he⟩ := Language.mem_mul.1 h
    obtain ⟨a, ds, rfl, -⟩ := head_of_digits ha
    obtain ⟨rfl, rfl⟩ := List.cons.inj he
    exact number_scale (fun c hc => ha.2 c (List.mem_cons_of_mem a hc)) hx
  case duration => exact (number_eq_duration_iff hd cs).2 (mem_components_iff.1 h)
  case timestamp =>
    obtain ⟨y, ⟨hlen, hy⟩, t, hmem, he⟩ := mem_timestamp_iff.1 h
    obtain ⟨a, ds, rfl⟩ := List.exists_cons_of_length_eq_add_one hlen
    rw [List.cons_append] at he
    obtain ⟨rfl, rfl⟩ := List.cons.inj he
    rw [ht rfl, number_year (fun c hc => hy c (List.mem_cons_of_mem d hc)) (by simpa using hlen)]
    exact timestamp_eq_iff.2 hmem
  all_goals exact h.elim

end Lexeme

open Lexeme

/-- The whole text is one token of a number-like kind exactly when it is a literal of the kind. -/
theorem Piece.lexes_nil_iff_mem {k : Kind} (hn : k.isNumeral = true) (hk : k.isIllegal = false)
    {w : String} : Lexes ⟨k, w⟩ [] ↔ w.toList ∈ texts k := by
  rw [lexes_nil_iff hn hk]
  by_cases ht : k = .timestamp
  · subst ht
    constructor
    · rintro ⟨negative, d, t, hw, hd, hnum⟩
      obtain ⟨hmem, hpos⟩ := mem_of_number hd hnum hk
      rw [hpos rfl] at hw
      rw [hw]
      exact hmem
    · intro h
      obtain ⟨d, t, hw, hd⟩ := head_of_unsigned (k := .timestamp) h
      rw [hw] at h
      exact ⟨false, d, t, hw, hd, number_of_mem hd h fun _ => rfl⟩
  · rw [texts_eq ht]
    constructor
    · rintro ⟨negative, d, t, hw, hd, hnum⟩
      rw [hw, signed_mem_iff (fun _ => head_of_unsigned) hd]
      exact (mem_of_number hd hnum hk).1
    · intro h
      obtain ⟨negative, d, t, hw, hd, hmem⟩ := exists_signed (fun _ => head_of_unsigned) h
      exact ⟨negative, d, t, hw, hd, number_of_mem hd hmem fun he => absurd he ht⟩

/-- A text that goes on no number-like literal: it is empty, or starts with no word character, no
point and no sign. -/
def EndsLiteral (r : String) : Prop :=
  ∀ c ∈ r.toList.head?, isWordChar c = false ∧ c ≠ '.' ∧ c ≠ '+' ∧ c ≠ '-'

theorem EndsLiteral.closes {r : String} (h : EndsLiteral r) : Closes [] r.toList where
  word := by
    cases hr : r.toList with
    | nil => rfl
    | cons c t => simpa [startsWord] using (h c (by rw [hr]; rfl)).1
  dash := fun he => absurd rfl (h '-' he).2.2.2
  point := by
    cases hr : r.toList with
    | nil => simp [fraction?]
    | cons c t =>
      have := (h c (by rw [hr]; rfl)).2.1
      simp [fraction?, this]

theorem closes_nil (r : List Char) : Closes r [] := ⟨rfl, by simp, by simp [fraction?]⟩

theorem Piece.front_eq_iff {p : Piece} (hp : p.kind ≠ .eof) {r : List Char} {pos : Position} :
    (Token.front pos (p.text.toList ++ r)).1 = ⟨p.kind, p.text, pos⟩ ↔ p.Lexes r := by
  constructor
  · intro h
    cases hcs : p.text.toList ++ r with
    | nil =>
      rw [hcs] at h
      exact absurd (congrArg Token.kind h).symm hp
    | cons c cs =>
      rw [hcs] at h
      have hlex : (Token.front pos (c :: cs)).1.piece.Lexes (lexeme c cs).2 := lexes_front
      have hcov : (Token.front pos (c :: cs)).1.text.toList ++ (lexeme c cs).2 = c :: cs :=
        Token.front_covers pos (c :: cs)
      rw [h] at hlex hcov
      have hrest : (lexeme c cs).2 = r := List.append_cancel_left (hcov.trans hcs.symm)
      rwa [hrest] at hlex
  · intro h
    rw [front_of_lexes h]

/-- The text of a number-like token, wherever it was cut, is in the language of its kind. -/
theorem Token.text_mem_texts {input : String} {t : Token} (ht : t ∈ tokenize input)
    (hn : t.kind.isNumeral = true) (hi : t.kind.isIllegal = false) (hl : t.kind.isLeaf = true) :
    t.text.toList ∈ texts t.kind := by
  have hscan : t ∈ Token.scan .start input.toList := by
    rcases List.mem_append.1 ht with h | h
    · exact h
    · rw [List.mem_singleton.1 h] at hl
      cases hl
  obtain ⟨r, hr⟩ := Piece.exists_lexes_of_mem_scan hscan
  exact (Piece.lexes_nil_iff_mem hn hi).1 (hr.of_closes hl (closes_nil r))

/-- Number-like literals are classified exactly: before any text that goes on none of them, the
token in front is `w` with one of the six kinds if and only if `w` is a literal of that kind. -/
theorem Lexer.scan_literal_iff (w r : String) (hr : EndsLiteral r) (k : Kind)
    (hk : k ∈ [Kind.hex, .oct, .int, .numeric, .duration, .timestamp]) :
    (Lexer.ofString (w ++ r)).scan.1 = ⟨k, w, .start⟩ ↔ w.toList ∈ texts k := by
  obtain ⟨hn, hill, hleaf, heof⟩ :
      k.isNumeral = true ∧ k.isIllegal = false ∧ k.isLeaf = true ∧ k ≠ .eof := by
    simp only [List.mem_cons, List.not_mem_nil, or_false] at hk
    rcases hk with rfl | rfl | rfl | rfl | rfl | rfl <;> decide
  have hfirst : (Lexer.ofString (w ++ r)).scan.1 =
      (Token.front .start (w.toList ++ r.toList)).1 := by
    rw [scan_eq, ← String.toList_append]
    rfl
  rw [hfirst, Piece.front_eq_iff (p := ⟨k, w⟩) heof, ← Piece.lexes_nil_iff_mem hn hill]
  exact ⟨fun h => h.of_closes hleaf (closes_nil _), fun h => h.of_closes hleaf hr.closes⟩

/-- Octal digits before a unit are a duration. -/
theorem Lexer.scan_octal_minutes : EndsLiteral ")" ∧ "0500m".toList ∈ texts .duration ∧
    (Lexer.ofString ("0500m" ++ ")")).scan.1 = ⟨.duration, "0500m", .start⟩ := by
  have hends : EndsLiteral ")" := by
    intro c hc
    obtain rfl : ')' = c := by simpa using hc
    decide
  have hmem : "0500m".toList ∈ texts .duration := by
    have hc : Duration.Component.Writes ⟨['0', '5', '0', '0'], [], .minute⟩ "0500m".toList :=
      ⟨by simp, List.all_eq_true.1 rfl, by simp, "m", by simp [TimeUnit.spellings], rfl⟩
    exact mem_optional_mul.2 (.inl ⟨_, by simp, .cons hc .nil, List.pairwise_singleton _ _⟩)
  exact ⟨hends, hmem, (Lexer.scan_literal_iff "0500m" ")" hends .duration (by decide)).2 hmem⟩

end ListQuery.Filter
