/-
Integer literals mean a number each (`Denotes`): decimal digits, hexadecimal or octal digits behind
a mark, or octal digits behind a zero, and a minus sign at will. What is cut as an integer literal
means exactly one number, however many digits it has.

As a value of a field of integers a literal is the number it means if the field has room for that
number, and is refused otherwise (`Lexer.integers_resolve`). The same comes out when the number is
worked out in words of 128 bits and cast to a word of 64 (`integerWords`): no cast wraps, and the
one operation without a check, the change of sign, always has room.
-/
import ListQuery.Proofs.Text.Classes
import ListQuery.Proofs.Time.Spellings
import ListQuery.Proofs.Time.Words

namespace ListQuery

/-- The numbers that a field of an integer kind has room for. -/
def FieldKind.Holds (k : FieldKind) (n : Int) : Prop :=
  ∃ bits, k.bits? = some bits ∧
    if k.isSigned then -2 ^ (bits - 1) ≤ n ∧ n < 2 ^ (bits - 1) else 0 ≤ n ∧ n < 2 ^ bits

namespace Filter

open Text Number Literal
open Time.Duration (Halt checked unchecked orRefused checked_bind checked_of_le checked_of_lt
  unchecked_of_le)

/-- A character that is a digit of a base, a letter in either case, and its value. -/
def StandsFor (base : Nat) (c : Char) (v : Nat) : Prop :=
  v < base ∧ (c = v.digitChar ∨ c = v.digitChar.toUpper)

/-- How integer literals of each kind are written without a sign: the base and its digits. -/
inductive Form : Kind → List Char → Nat → List Char → Prop
  | decimal (ds : List Char) : Form .int ds 10 ds
  | hex {mark : Char} (ds : List Char) (h : mark = 'x' ∨ mark = 'X') :
    Form .hex ('0' :: mark :: ds) 16 ds
  | marked {mark : Char} (ds : List Char) (h : mark = 'o' ∨ mark = 'O') :
    Form .oct ('0' :: mark :: ds) 8 ds
  | leading (ds : List Char) : Form .oct ('0' :: ds) 8 ('0' :: ds)

/-- The number that the text of an integer literal means. -/
def Denotes (kind : Kind) (text : String) (n : Int) : Prop :=
  ∃ negative body base ds vs, text.toList = Lexeme.signed negative body ∧
    Form kind body base ds ∧ vs ≠ [] ∧ List.Forall₂ (StandsFor base) ds vs ∧
      n = (if negative then -1 else 1) * Nat.ofDigits base vs.reverse

theorem Form.base_le {kind : Kind} {body ds : List Char} {base : Nat} (h : Form kind body base ds) :
    base ≤ 16 := by
  cases h <;> decide

theorem StandsFor.digit {base : Nat} (hbase : base ≤ 16) {c : Char} {v : Nat}
    (h : StandsFor base c v) : isHexDigit c = true ∧ digitValue c = v := by
  have hall : ∀ v < 16, (isHexDigit v.digitChar = true ∧ digitValue v.digitChar = v) ∧
      isHexDigit v.digitChar.toUpper = true ∧ digitValue v.digitChar.toUpper = v := by
    decide
  obtain ⟨hv, rfl | rfl⟩ := h
  · exact (hall v (by omega)).1
  · exact (hall v (by omega)).2

theorem standsFor_hex {c : Char} (h : isHexDigit c = true) : StandsFor 16 c (digitValue c) := by
  have hascii : c.toNat < 128 := by
    simp only [isHexDigit, Char.isDigit, Bool.or_eq_true, Bool.and_eq_true,
      decide_eq_true_eq] at h
    rcases h with (h | h) | h
    · have hle : c.toNat ≤ 57 := UInt32.le_iff_toNat_le.1 h.2
      omega
    · have hle : c.toNat ≤ 102 := UInt32.le_iff_toNat_le.1 h.2
      omega
    · have hle : c.toNat ≤ 70 := UInt32.le_iff_toNat_le.1 h.2
      omega
  have hall : ∀ n < 128, isHexDigit (Char.ofNat n) = true →
      digitValue (Char.ofNat n) < 16 ∧ (Char.ofNat n = (digitValue (Char.ofNat n)).digitChar ∨
        Char.ofNat n = (digitValue (Char.ofNat n)).digitChar.toUpper) := by
    decide
  exact forall_ascii (P := fun c => isHexDigit c = true → StandsFor 16 c (digitValue c))
    hall hascii h

theorem standsFor_decimal {c : Char} (h : c.isDigit = true) : StandsFor 10 c (digitValue c) :=
  ⟨Nat.lt_succ_of_le (digitValue_le_nine h), (standsFor_hex (by simp [isHexDigit, h])).2⟩

theorem standsFor_octal {c : Char} (h : isOctalDigit c = true) : StandsFor 8 c (digitValue c) := by
  have hdigit := Lexeme.isDigit_of_isOctalDigit h
  refine ⟨?_, (standsFor_decimal hdigit).2⟩
  simp only [isOctalDigit, Bool.and_eq_true, decide_eq_true_eq] at h
  have hle : c.toNat ≤ 55 := UInt32.le_iff_toNat_le.1 h.2
  have hzero : '0'.toNat = 48 := rfl
  rw [digitValue, if_pos hdigit]
  omega

theorem forall₂_digitValue {p : Char → Bool} {base : Nat}
    (hp : ∀ c, p c = true → StandsFor base c (digitValue c)) {ds : List Char}
    (h : ∀ c ∈ ds, p c = true) : List.Forall₂ (StandsFor base) ds (ds.map digitValue) :=
  List.forall₂_map_right_iff.2 (List.forall₂_same.2 fun c hc => hp c (h c hc))

theorem exists_values {p : Char → Bool} {base : Nat}
    (hp : ∀ c, p c = true → StandsFor base c (digitValue c)) {ds : List Char} (h : ds ∈ run p) :
    ∃ vs, vs ≠ [] ∧ List.Forall₂ (StandsFor base) ds vs :=
  ⟨ds.map digitValue, by simpa using h.1, forall₂_digitValue hp h.2⟩

theorem exists_form {kind : Kind} (hk : kind.isInteger = true) {body : List Char}
    (h : body ∈ unsigned kind) : ∃ base ds vs, Form kind body base ds ∧ vs ≠ [] ∧
      List.Forall₂ (StandsFor base) ds vs := by
  cases kind
  case int =>
    obtain ⟨vs, hne, hvs⟩ := exists_values (fun _ => standsFor_decimal) h.1
    exact ⟨_, _, vs, .decimal body, hne, hvs⟩
  case hex =>
    obtain ⟨d, t, rfl, -⟩ := head_of_unsigned h
    obtain ⟨mark, ds, rfl, hmark, rfl, hds⟩ := Lexeme.mem_marked_iff.1 h
    obtain ⟨vs, hne, hvs⟩ := exists_values (fun _ => standsFor_hex) hds
    exact ⟨_, _, vs, .hex ds (by simpa using hmark), hne, hvs⟩
  case oct =>
    obtain ⟨d, t, rfl, -⟩ := head_of_unsigned h
    rcases h with h | h
    · obtain ⟨mark, ds, rfl, hmark, rfl, hds⟩ := Lexeme.mem_marked_iff.1 h
      obtain ⟨vs, hne, hvs⟩ := exists_values (fun _ => standsFor_octal) hds
      exact ⟨_, _, vs, .marked ds (by simpa using hmark), hne, hvs⟩
    · obtain ⟨zero, hzero, ds, hds, he⟩ := mem_oneOf_mul.1 h
      cases he
      obtain rfl : d = '0' := by simpa using hzero
      have hall : '0' :: t ∈ run isOctalDigit :=
        ⟨by simp, List.forall_mem_cons.2 ⟨by decide, hds.2⟩⟩
      obtain ⟨vs, hne, hvs⟩ := exists_values (fun _ => standsFor_octal) hall
      exact ⟨_, _, vs, .leading t, hne, hvs⟩
  all_goals cases hk

theorem exists_denotes {kind : Kind} (hk : kind.isInteger = true) {text : String}
    (h : text.toList ∈ texts kind) : ∃ n, Denotes kind text n := by
  have hmoment : kind ≠ .timestamp := by
    rintro rfl
    cases hk
  rw [texts_eq hmoment] at h
  obtain ⟨negative, d, t, htext, -, hmem⟩ := exists_signed (fun _ => head_of_unsigned) h
  obtain ⟨base, ds, vs, hform, hne, hvs⟩ := exists_form hk hmem
  exact ⟨_, negative, d :: t, base, ds, vs, htext, hform, hne, hvs, rfl⟩

theorem ofDigits_map_digitValue (base : Nat) (ds : List Char) :
    Nat.ofDigits base (ds.map digitValue).reverse = ofDigits base ds := by
  induction ds using List.reverseRecOn with
  | nil => rfl
  | append_singleton ds d ih =>
    rw [List.map_append, List.reverse_append, ofDigits_concat, ← ih]
    simp [Nat.ofDigits_cons, Nat.mul_comm, Nat.add_comm]

/-- The text is a sign and a body, and the body is read as these digits in this base. -/
structure ReadsDigits (kind : Kind) (text : List Char) (negative : Bool) (base : Nat)
    (digits : List Char) : Prop where
  negative_eq : (text.head? == some '-') = negative
  digits_eq : integerDigits kind (if negative then text.tail else text) = some (base, digits)
  ne_nil : digits ≠ []
  valid : ∀ c ∈ digits, isHexDigit c = true ∧ digitValue c < base

theorem Form.integerDigits_eq {kind : Kind} {body ds : List Char} {base : Nat}
    (h : Form kind body base ds) (hds : ∀ c ∈ ds, isHexDigit c = true) :
    integerDigits kind body = some (base, ds) := by
  cases h with
  | decimal => rfl
  | hex => rfl
  | marked ds hmark => rcases hmark with rfl | rfl <;> rfl
  | leading ds =>
    cases ds with
    | nil => rfl
    | cons c t =>
      -- No mark is a digit of any base.
      have hc := hds c (by simp)
      have hmark : c ≠ 'o' ∧ c ≠ 'O' := by
        refine ⟨?_, ?_⟩ <;> rintro rfl <;> exact absurd hc (by decide)
      simp [integerDigits, hmark]

/-- A body starts with a digit. -/
theorem Form.head {kind : Kind} {body ds : List Char} {base : Nat} (h : Form kind body base ds)
    (hne : ds ≠ []) (hds : ∀ c ∈ ds, isHexDigit c = true) :
    ∃ d t, body = d :: t ∧ isHexDigit d = true := by
  cases h with
  | decimal =>
    obtain ⟨d, t, rfl⟩ := List.exists_cons_of_ne_nil hne
    exact ⟨d, t, rfl, hds d (by simp)⟩
  | hex | marked | leading => exact ⟨'0', _, rfl, by decide⟩

theorem values_eq {base : Nat} (hbase : base ≤ 16) {ds : List Char} {vs : List Nat}
    (h : List.Forall₂ (StandsFor base) ds vs) :
    vs = ds.map digitValue ∧ ∀ c ∈ ds, isHexDigit c = true ∧ digitValue c < base := by
  induction h with
  | nil => exact ⟨rfl, by simp⟩
  | @cons c v ds vs hc _ ih =>
    obtain ⟨hhex, rfl⟩ := hc.digit hbase
    obtain ⟨rfl, hds⟩ := ih
    exact ⟨rfl, List.forall_mem_cons.2 ⟨⟨hhex, hc.1⟩, hds⟩⟩

theorem Denotes.reads {kind : Kind} {text : String} {n : Int} (h : Denotes kind text n) :
    ∃ negative base digits, ReadsDigits kind text.toList negative base digits ∧
      n = (if negative then -1 else 1) * ofDigits base digits := by
  obtain ⟨negative, body, base, ds, vs, htext, hform, hne, hvs, rfl⟩ := h
  obtain ⟨rfl, hvalid⟩ := values_eq hform.base_le hvs
  have hds : ds ≠ [] := by simpa using hne
  obtain ⟨d, t, rfl, hd⟩ := hform.head hds fun c hc => (hvalid c hc).1
  have hdash : d ≠ '-' := by
    rintro rfl
    exact absurd hd (by decide)
  refine ⟨negative, base, ds, ⟨?_, ?_, hds, hvalid⟩, ?_⟩
  · rw [htext]
    cases negative <;> simp [Lexeme.signed, hdash]
  · rw [htext, ← hform.integerDigits_eq fun c hc => (hvalid c hc).1]
    cases negative <;> rfl
  · rw [ofDigits_map_digitValue]

/-- A text means one number at most. -/
theorem Denotes.unique {kind : Kind} {text : String} {n n' : Int} (h : Denotes kind text n)
    (h' : Denotes kind text n') : n' = n := by
  obtain ⟨negative, base, ds, hreads, rfl⟩ := h.reads
  obtain ⟨negative', base', ds', hreads', rfl⟩ := h'.reads
  obtain rfl : negative = negative' := hreads.negative_eq.symm.trans hreads'.negative_eq
  have hsame := hreads.digits_eq.symm.trans hreads'.digits_eq
  cases hsame
  rfl

theorem Denotes.integerValue?_eq {kind : Kind} {text : String} {n : Int} (h : Denotes kind text n) :
    integerValue? kind text.toList = if n.natAbs ≤ Word.maxInt128 then some n else none := by
  obtain ⟨negative, base, ds, hreads, rfl⟩ := h.reads
  unfold integerValue?
  simp only [hreads.negative_eq, hreads.digits_eq]
  cases negative <;> simp

/-! ## Words -/

/-- A digit of a base. -/
def digit? (base : Nat) (c : Char) : Option Nat :=
  if isHexDigit c ∧ digitValue c < base then some (digitValue c) else none

/-- The number of the digits read so far with one more behind them, both steps checked. -/
def addDigit (base : Nat) (n : Int) (c : Char) : Except Halt Int := do
  let d ← orRefused (digit? base c)
  let shifted ← checked (n * base)
  checked (shifted + d)

/-- The number that digits spell, in a word of 128 bits. There has to be a digit. -/
def digitsWords (base : Nat) (digits : List Char) : Except Halt Int :=
  if digits.isEmpty then .error .refused else digits.foldlM (addDigit base) 0

/-- The number of an integer literal in a word of 128 bits. Its sign is changed without a check. -/
def literalWords (kind : Kind) (text : List Char) : Except Halt Int := do
  let negative := text.head? == some '-'
  let (base, digits) ← orRefused (integerDigits kind (if negative then text.tail else text))
  let n ← digitsWords base digits
  if negative then unchecked (-n) else pure n

/-- The value of an integer literal for an integer kind: once its number is found in range, it is
cast to a word of 64 bits, and what has no room there is cut off. -/
def integerWords (k : FieldKind) (kind : Kind) (text : List Char) : Except Halt Value := do
  let n ← literalWords kind text
  if (integerRange k).1 ≤ n ∧ n ≤ (integerRange k).2 then
    if k.isSigned then pure (.int64 (Int64.ofInt n).toInt)
    else pure (.uint64 (UInt64.ofInt n).toNat)
  else .error .refused

theorem addDigit_eq {base : Nat} {ds : List Char} {c : Char}
    (hc : isHexDigit c = true ∧ digitValue c < base) :
    addDigit base (ofDigits base ds) c = checked (ofDigits base (ds ++ [c])) := by
  have hdigit : digit? base c = some (digitValue c) := if_pos hc
  rw [addDigit, hdigit, ofDigits_concat]
  exact checked_bind (n := ofDigits base ds * base) (Nat.le_add_right _ _) rfl

/-- A check on the way refuses no number that fits in the end. -/
theorem digitsWords_eq {base : Nat} {ds : List Char} (hne : ds ≠ [])
    (hds : ∀ c ∈ ds, isHexDigit c = true ∧ digitValue c < base) :
    digitsWords base ds = checked (ofDigits base ds) := by
  have hfold : ds.foldlM (addDigit base) 0 = checked (ofDigits base ds) := by
    clear hne
    induction ds using List.reverseRecOn with
    | nil => rfl
    | append_singleton ds c ih =>
      have hc := hds c (by simp)
      have hle : ofDigits base ds ≤ ofDigits base (ds ++ [c]) := by
        rw [ofDigits_concat]
        exact Nat.le_trans (Nat.le_mul_of_pos_right _ (by omega)) (Nat.le_add_right _ _)
      rw [List.foldlM_append, ih fun x hx => hds x (by simp [hx])]
      refine checked_bind hle ?_
      rw [List.foldlM_cons, addDigit_eq hc]
      exact bind_pure _
  rw [digitsWords, if_neg (by simpa using hne), hfold]

/-- A number that is read has room for its sign. -/
theorem Denotes.literalWords_eq {kind : Kind} {text : String} {n : Int} (h : Denotes kind text n) :
    literalWords kind text.toList =
      if n.natAbs ≤ Word.maxInt128 then .ok n else .error .refused := by
  obtain ⟨negative, base, ds, hreads, rfl⟩ := h.reads
  have habs : ((if negative then -1 else 1) * (ofDigits base ds : Int)).natAbs =
      ofDigits base ds := by
    cases negative <;> simp
  rw [habs, literalWords]
  simp only [hreads.negative_eq, hreads.digits_eq, orRefused]
  show digitsWords base ds >>= _ = _
  rw [digitsWords_eq hreads.ne_nil hreads.valid]
  by_cases hfits : ofDigits base ds ≤ Word.maxInt128
  · rw [if_pos hfits, checked_of_le hfits]
    cases negative with
    | true =>
      have hneg := unchecked_of_le (n := -(ofDigits base ds : Int)) (by simpa using hfits)
      rw [if_pos rfl, Int.neg_one_mul]
      exact hneg
    | false =>
      rw [if_neg (by decide), Int.one_mul]
      rfl
  · rw [if_neg hfits, checked_of_lt (by omega)]
    rfl

theorem holds_iff {k : FieldKind} (hk : (k.isSigned || k.isUnsigned) = true) {n : Int} :
    k.Holds n ↔ (integerRange k).1 ≤ n ∧ n ≤ (integerRange k).2 := by
  unfold FieldKind.Holds
  cases k <;> first
    | exact absurd hk (by decide)
    | simp [FieldKind.bits?, integerRange, FieldKind.isSigned, Word.minInt64, Word.maxInt64,
        Word.minInt32, Word.maxInt32, Word.maxNat64, Word.maxNat32]
      omega

/-- Every range lies within words of 64 bits, and that of an unsigned kind starts at zero. -/
theorem range_le (k : FieldKind) :
    Word.minInt64 ≤ (integerRange k).1 ∧ (integerRange k).2 ≤ Word.maxNat64 ∧
      if k.isSigned then (integerRange k).2 ≤ Word.maxInt64 else (integerRange k).1 = 0 := by
  cases k <;> decide

/-! ## Values -/

/-- The value of an integer kind that is a number. -/
def Value.IsInteger (v : Value) (k : FieldKind) (n : Int) : Prop :=
  (k.isSigned = true ∧ v = .int64 n) ∨
    (k.isUnsigned = true ∧ ∃ u : Nat, v = .uint64 u ∧ (u : Int) = n)

theorem integerLiteral_of_holds {f : Field} {l : Leaf} (hl : l.kind.isInteger = true)
    (hkind : (f.kind.isSigned || f.kind.isUnsigned) = true) {n : Int}
    (hn : Denotes l.kind l.raw n) (h : f.kind.Holds n) :
    ∃ key : MapKey, key.toValue.IsInteger f.kind n ∧ integerLiteral f l = pure key ∧
      integerWords f.kind l.kind l.raw.toList = .ok key.toValue := by
  have hrange := (holds_iff hkind).1 h
  obtain ⟨hlow, hhigh, hbound⟩ := range_le f.kind
  have hfits : n.natAbs ≤ Word.maxInt128 := by
    unfold Word.minInt64 at hlow
    unfold Word.maxNat64 at hhigh
    unfold Word.maxInt128
    omega
  have hvalue : l.integer? = some n := by rw [Leaf.integer?, hn.integerValue?_eq, if_pos hfits]
  have hwords : literalWords l.kind l.raw.toList = .ok n := by
    rw [hn.literalWords_eq, if_pos hfits]
  cases hsigned : f.kind.isSigned with
  | true =>
    rw [if_pos hsigned] at hbound
    have hcast : (Int64.ofInt n).toInt = n := by
      unfold Word.minInt64 at hlow
      unfold Word.maxInt64 at hbound
      exact Int64.toInt_ofInt_of_le (by omega) (by omega)
    refine ⟨.int64 n, .inl ⟨hsigned, rfl⟩, ?_, ?_⟩
    · simp [integerLiteral, hl, hvalue, hsigned, hrange]
    · simp [integerWords, hwords, hsigned, hrange, hcast, MapKey.toValue, bind, Except.bind]
      rfl
  | false =>
    rw [if_neg (by simp [hsigned])] at hbound
    have hunsigned : f.kind.isUnsigned = true := by simpa [hsigned] using hkind
    have hcast : (UInt64.ofInt n).toNat = n.toNat := by
      unfold Word.maxNat64 at hhigh
      rw [UInt64.ofInt, UInt64.toNat_ofNat']
      omega
    refine ⟨.uint64 n.toNat, .inr ⟨hunsigned, n.toNat, rfl, Int.toNat_of_nonneg (by omega)⟩, ?_, ?_⟩
    · simp [integerLiteral, hl, hvalue, hsigned, hunsigned, hrange]
    · simp [integerWords, hwords, hsigned, hrange, hcast, MapKey.toValue, bind, Except.bind]
      rfl

theorem integerLiteral_of_not_holds {f : Field} {l : Leaf} (hl : l.kind.isInteger = true)
    (hkind : (f.kind.isSigned || f.kind.isUnsigned) = true) {n : Int}
    (hn : Denotes l.kind l.raw n) (h : ¬ f.kind.Holds n) :
    integerLiteral f l = Resolve.fail l.pos (.outOfRange l.raw f.kind) ∧
      integerWords f.kind l.kind l.raw.toList = .error .refused := by
  have hrange : ¬ ((integerRange f.kind).1 ≤ n ∧ n ≤ (integerRange f.kind).2) := by
    rwa [← holds_iff hkind]
  by_cases hfits : n.natAbs ≤ Word.maxInt128
  · have hvalue : l.integer? = some n := by rw [Leaf.integer?, hn.integerValue?_eq, if_pos hfits]
    have hwords : literalWords l.kind l.raw.toList = .ok n := by
      rw [hn.literalWords_eq, if_pos hfits]
    refine ⟨?_, ?_⟩
    · simp only [integerLiteral, hl, Bool.not_true, Bool.false_eq_true, ↓reduceIte, hvalue, hrange]
      cases hsigned : f.kind.isSigned
      · have hunsigned : f.kind.isUnsigned = true := by simpa [hsigned] using hkind
        simp [hunsigned]
      · rfl
    · simp [integerWords, hwords, hrange, bind, Except.bind]
  · have hvalue : l.integer? = none := by rw [Leaf.integer?, hn.integerValue?_eq, if_neg hfits]
    have hwords : literalWords l.kind l.raw.toList = .error .refused := by
      rw [hn.literalWords_eq, if_neg hfits]
    refine ⟨?_, ?_⟩
    · simp [integerLiteral, hl, hvalue]
    · simp [integerWords, hwords, bind, Except.bind]

theorem literal_of_isInteger {k : Kind} (h : k.isInteger = true) :
    k.isNumeral = true ∧ k.isIllegal = false ∧ k.isLeaf = true := by
  cases k <;> first | exact ⟨rfl, rfl, rfl⟩ | cases h

/-- Every integer literal means one number, and as a value of a field of integers it is that number
or is refused, as the field has room for it or not. Words come to the same. -/
theorem Lexer.integers_resolve (input : String) :
    ∀ t ∈ (Lexer.ofString input).tokenize, t.kind.isInteger = true →
      ∃ n, Denotes t.kind t.text n ∧ (∀ n', Denotes t.kind t.text n' → n' = n) ∧
        ∀ f : Field, (f.kind.isSigned || f.kind.isUnsigned) = true → f.isMap = false →
          (f.kind.Holds n → ∃ v : Value, v.IsInteger f.kind n ∧
            integerWords f.kind t.kind t.text.toList = .ok v ∧
            ∀ (r : Resolver) (m : Member), m.value.token = t → m.fields = [] →
              ∀ (levels : Nat) (mode : ValueMode) (reports : List (Report ValueCause)),
                r.comparableValue (levels + 1) f (.member m) mode reports =
                  .ok (.value v) reports) ∧
          (¬ f.kind.Holds n →
            integerWords f.kind t.kind t.text.toList = .error .refused ∧
            ∀ (r : Resolver) (m : Member), m.value.token = t → m.fields = [] →
              ∀ (levels : Nat) (mode : ValueMode) (reports : List (Report ValueCause)),
                r.comparableValue (levels + 1) f (.member m) mode reports =
                  .error (.invalidValue t.pos)
                    (reports ++ [⟨t.pos, .outOfRange t.text f.kind⟩])) := by
  intro t ht hk
  rw [tokenize_ofString] at ht
  obtain ⟨hn, hi, hl⟩ := literal_of_isInteger hk
  obtain ⟨n, hmeans⟩ := exists_denotes hk (Token.text_mem_texts ht hn hi hl)
  refine ⟨n, hmeans, fun n' => hmeans.unique, fun f hkind hmap =>
    ⟨fun hholds => ?_, fun hholds => ?_⟩⟩
  · obtain ⟨key, hkey, hliteral, hwords⟩ :=
      integerLiteral_of_holds (f := f) (l := ⟨t, hl⟩) hk hkind hmeans hholds
    refine ⟨key.toValue, hkey, hwords, ?_⟩
    rintro r m rfl hm levels mode reports
    rw [Resolver.comparableValue_integerLiteral hkind hmap hk hm]
    exact congrFun (congrArg (· >>= _) hliteral) reports
  · obtain ⟨hliteral, hwords⟩ :=
      integerLiteral_of_not_holds (f := f) (l := ⟨t, hl⟩) hk hkind hmeans hholds
    refine ⟨hwords, ?_⟩
    rintro r m rfl hm levels mode reports
    rw [Resolver.comparableValue_integerLiteral hkind hmap hk hm]
    exact congrFun (congrArg (· >>= _) hliteral) reports

/-- The least number of 32 bits, written in another base. -/
theorem Lexer.least_int32_resolves :
    let text := "-0x80000000"
    let t : Token := ⟨.hex, text, .start⟩
    let f : Field := { name := "count", kind := .sint32 }
    let m : Member := ⟨⟨.start, t.stop⟩, ⟨t, rfl⟩, []⟩
    t ∈ (Lexer.ofString text).tokenize ∧ t.kind.isInteger = true ∧
      (f.kind.isSigned || f.kind.isUnsigned) = true ∧ f.isMap = false ∧
        ∀ r : Resolver, r.comparableValue 1 f (.member m) .direct [] =
          .ok (.value (.int64 (-2147483648))) [] := by
  intro text t f m
  have hlexes : Piece.Lexes ⟨.hex, text⟩ [] :=
    ⟨'-', "0x80000000".toList, by simp [text], by decide⟩
  have ht : t ∈ (Lexer.ofString text).tokenize := by
    rw [Lexer.tokenize_single_iff.2 hlexes]
    exact List.mem_cons_self
  have hdigits : List.Forall₂ (StandsFor 16) "80000000".toList _ :=
    forall₂_digitValue (fun _ => standsFor_hex) (by simp [isHexDigit])
  have htext : text.toList = Lexeme.signed true ('0' :: 'x' :: "80000000".toList) := by
    simp [text, Lexeme.signed]
  have hmeans : Denotes t.kind t.text (-2147483648) :=
    ⟨true, _, 16, _, _, htext, .hex _ (.inl rfl), by simp, hdigits,
      by simp [Nat.ofDigits_cons, digitValue]⟩
  obtain ⟨n, -, hunique, hvalue⟩ := Lexer.integers_resolve text t ht rfl
  obtain rfl := hunique _ hmeans
  have hholds : f.kind.Holds (-2147483648) := ⟨32, rfl, by decide⟩
  obtain ⟨v, hv, -, hresolve⟩ := (hvalue f rfl rfl).1 hholds
  refine ⟨ht, rfl, rfl, rfl, fun r => ?_⟩
  rw [hresolve r m rfl rfl]
  rcases hv with ⟨-, rfl⟩ | ⟨hunsigned, -⟩
  · rfl
  · cases hunsigned

end Filter

end ListQuery
