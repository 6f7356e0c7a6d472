/-
Objects of whole numbers as texts. Each part of the text is read as what it was written for,
whatever follows it: a plain string up to its closing quote (`string?_plain`), a whole number up to
the first byte that cannot belong to it (`value?_signedDecimal`), the members up to the closing
brace (`members?_membersText`). So a text reads as the members that it was written for
(`read?_bytes`).
-/
import Mathlib.Data.List.Basic
import ListQuery.Json.Decode
import ListQuery.Proofs.Text.Digits

namespace ListQuery.Json

open Number Text

/-- The bytes of a text. -/
def utf8 (s : String) : List UInt8 := s.toUTF8.toList

theorem loop_toList (b : ByteArray) (i : Nat) (acc : List UInt8) :
    ByteArray.toList.loop b i acc = acc.reverse ++ b.data.toList.drop i := by
  fun_induction ByteArray.toList.loop b i acc with
  | case1 i acc hi ih =>
    have hlen : i < b.data.toList.length := hi
    have hget : b.get! i = b.data.toList.get ⟨i, hlen⟩ := getElem!_pos b.data i hi
    rw [ih, hget, List.reverse_cons, List.append_assoc, List.drop_eq_getElem_cons hlen]
    rfl
  | case2 i acc hi =>
    have hdrop : b.data.toList.drop i = [] := List.drop_eq_nil_of_le (Nat.le_of_not_lt hi)
    rw [hdrop, List.append_nil]

theorem toList_eq_data (b : ByteArray) : b.toList = b.data.toList := by
  rw [ByteArray.toList, loop_toList]
  rfl

theorem utf8_eq_data (s : String) : utf8 s = s.toByteArray.data.toList := toList_eq_data _

theorem utf8_append (s t : String) : utf8 (s ++ t) = utf8 s ++ utf8 t := by
  rw [utf8_eq_data, utf8_eq_data, utf8_eq_data, String.toByteArray_append,
    ByteArray.toList_data_append]

theorem fromUTF8?_utf8 (s : String) : String.fromUTF8? ⟨(utf8 s).toArray⟩ = some s := by
  have h : (⟨(utf8 s).toArray⟩ : ByteArray) = s.toByteArray := by rw [utf8_eq_data]
  rw [h, String.fromUTF8?, dif_pos s.isValidUTF8]
  rfl

/-- Characters of one byte each. -/
theorem utf8_ofList {cs : List Char} (h : ∀ c ∈ cs, c.toNat < 128) :
    utf8 (String.ofList cs) = cs.map Raw.byte := by
  have hbytes : cs.flatMap String.utf8EncodeChar = cs.map Raw.byte := by
    induction cs with
    | nil => rfl
    | cons c cs ih =>
      have hsize : c.utf8Size = 1 := by
        have hle : c.val ≤ 0x7F := UInt32.le_iff_toNat_le.2 (Nat.le_of_lt_succ (h c (by simp)))
        simp [Char.utf8Size, hle]
      rw [List.flatMap_cons, String.utf8EncodeChar_eq_singleton hsize,
        ih fun d hd => h d (by simp [hd])]
      rfl
  rw [utf8_eq_data, String.toByteArray_ofList, List.utf8Encode, hbytes]
  simp

/-- A character that stands in a text as it is, in one byte. -/
def plainChar (c : Char) : Bool :=
  decide (32 ≤ c.toNat) && decide (c.toNat < 128) && c != '"' && c != '\\'

/-- A text that is written as it is. -/
def Plain (s : String) : Prop := ∀ c ∈ s.toList, plainChar c = true

-- Through the list: there is also an instance that goes through all characters.
instance (s : String) : Decidable (Plain s) := List.decidableBAll (plainChar · = true) s.toList

theorem escapeChar_plain {c : Char} (h : plainChar c = true) :
    escapeChar c = String.singleton c := by
  simp only [plainChar, Bool.and_eq_true, decide_eq_true_eq, bne_iff_ne, ne_eq] at h
  unfold escapeChar
  split <;> simp_all

theorem quote_plain {s : String} (h : Plain s) : quote s = "\"" ++ s ++ "\"" := by
  have hjoin : String.join (s.toList.map escapeChar) = s := by
    apply String.toList_inj.1
    rw [String.toList_join, List.flatMap_map]
    rw [List.flatMap_congr fun c hc => by rw [escapeChar_plain (h c hc), String.toList_singleton]]
    simp
  rw [quote, hjoin]

namespace Raw

theorem toNat_byte {c : Char} (h : c.toNat < 128) : (byte c).toNat = c.toNat := by
  show c.toNat % 256 = c.toNat
  omega

theorem byte_ne {c d : Char} (hc : c.toNat < 128) (hd : d.toNat < 128) (h : c ≠ d) :
    byte c ≠ byte d := by
  intro heq
  have hnat := congrArg UInt8.toNat heq
  rw [toNat_byte hc, toNat_byte hd] at hnat
  exact h (Char.toNat_inj.1 hnat)

/-- A byte that is neither a quote nor a control byte nor begins an escape. -/
def plainByte (b : UInt8) : Bool := b != byte '"' && b != byte '\\' && !decide (b < 32)

theorem plainByte_byte {c : Char} (h : plainChar c = true) : plainByte (byte c) = true := by
  simp only [plainChar, Bool.and_eq_true, decide_eq_true_eq, bne_iff_ne, ne_eq] at h
  obtain ⟨⟨⟨hlow, hhigh⟩, hquote⟩, hslash⟩ := h
  have hcontrol : ¬byte c < 32 := by
    rw [UInt8.lt_iff_toNat_lt, toNat_byte hhigh]
    exact Nat.not_lt.2 hlow
  simp [plainByte, byte_ne hhigh (by decide : '"'.toNat < 128) hquote,
    byte_ne hhigh (by decide : '\\'.toNat < 128) hslash, hcontrol]

theorem utf8_plain {s : String} (h : Plain s) : utf8 s = s.toList.map byte := by
  have hascii : ∀ c ∈ s.toList, c.toNat < 128 := by
    intro c hc
    have hplain := h c hc
    simp only [plainChar, Bool.and_eq_true, decide_eq_true_eq] at hplain
    exact hplain.1.1.2
  rw [← utf8_ofList hascii, String.ofList_toList]

theorem plainByte_of_mem_utf8 {s : String} (h : Plain s) : ∀ b ∈ utf8 s, plainByte b = true := by
  rw [utf8_plain h]
  rintro b hb
  obtain ⟨c, hc, rfl⟩ := List.mem_map.1 hb
  exact plainByte_byte (h c hc)

theorem stringContent?_plain {bs : List UInt8} (h : ∀ b ∈ bs, plainByte b = true)
    (rest : List UInt8) : stringContent? (bs ++ byte '"' :: rest) = some (bs, rest) := by
  induction bs with
  | nil => rw [List.nil_append, stringContent?.eq_def]; rfl
  | cons b bs ih =>
    have hb := h b (by simp)
    simp only [plainByte, Bool.and_eq_true, bne_iff_ne, ne_eq, Bool.not_eq_true',
      decide_eq_false_iff_not] at hb
    rw [List.cons_append, stringContent?.eq_def]
    simp [hb, ih fun c hc => h c (by simp [hc])]

theorem escapesWhole_plain {bs : List UInt8} (h : ∀ b ∈ bs, plainByte b = true) :
    escapesWhole bs = true := by
  induction bs with
  | nil => rfl
  | cons b bs ih =>
    have hb := h b (by simp)
    simp only [plainByte, Bool.and_eq_true, bne_iff_ne, ne_eq] at hb
    rw [escapesWhole.eq_def]
    simp [hb, ih fun c hc => h c (by simp [hc])]

/-- A plain string is read up to its closing quote. -/
theorem string?_plain {s : String} (h : Plain s) (rest : List UInt8) :
    string? (utf8 s ++ byte '"' :: rest) = some (utf8 s, rest) := by
  have hplain := plainByte_of_mem_utf8 h
  simp [string?, stringContent?_plain hplain, escapesWhole_plain hplain]

theorem unescape?_plain {bs : List UInt8} (h : ∀ b ∈ bs, plainByte b = true) :
    unescape? bs.length bs = some bs := by
  induction bs with
  | nil => rfl
  | cons b bs ih =>
    have hb := h b (by simp)
    simp only [plainByte, Bool.and_eq_true, bne_iff_ne, ne_eq] at hb
    simp [unescape?, hb, ih fun c hc => h c (by simp [hc])]

theorem text?_plain {s : String} (h : Plain s) : text? (utf8 s) = some s := by
  rw [text?, unescape?_plain (plainByte_of_mem_utf8 h)]
  exact fromUTF8?_utf8 s

/-! ## Whole numbers -/

/-- What a whole number is read as. -/
def ofInt (n : Int) : Raw :=
  .number ⟨decide (n < 0), (Nat.toDigits 10 n.natAbs).map digitValue, [], none⟩

/-- A byte that ends a whole number. -/
def endsNumber (b : UInt8) : Bool :=
  !isDigit b && b != byte '.' && b != byte 'e' && b != byte 'E'

theorem toNat_of_isDigit {c : Char} (h : c.isDigit = true) : 48 ≤ c.toNat ∧ c.toNat ≤ 57 := by
  simp only [Char.isDigit, Bool.and_eq_true, decide_eq_true_eq] at h
  exact ⟨UInt32.le_iff_toNat_le.1 h.1, UInt32.le_iff_toNat_le.1 h.2⟩

theorem toNat_byte_of_isDigit {c : Char} (h : c.isDigit = true) : (byte c).toNat = c.toNat :=
  toNat_byte (Nat.lt_of_le_of_lt (toNat_of_isDigit h).2 (by decide))

theorem isDigit_byte {c : Char} (h : c.isDigit = true) : isDigit (byte c) = true := by
  simp only [isDigit, Bool.and_eq_true, decide_eq_true_eq, UInt8.le_iff_toNat_le,
    toNat_byte_of_isDigit h]
  exact toNat_of_isDigit h

theorem digit_byte {c : Char} (h : c.isDigit = true) : digit (byte c) = digitValue c := by
  have hle : byte '0' ≤ byte c := by
    rw [UInt8.le_iff_toNat_le, toNat_byte_of_isDigit h]
    exact (toNat_of_isDigit h).1
  simp only [digitValue, h, if_true, digit, UInt8.toNat_sub_of_le _ _ hle, toNat_byte_of_isDigit h]
  rfl

theorem digits?_append {ds : List Char} (hds : ∀ d ∈ ds, d.isDigit = true) (hne : ds ≠ [])
    {b : UInt8} (hb : isDigit b = false) (rest : List UInt8) :
    digits? (ds.map byte ++ b :: rest) = some (ds.map digitValue, b :: rest) := by
  have hbytes : ∀ d ∈ ds.map byte, isDigit d = true := by
    intro d hd
    obtain ⟨c, hc, rfl⟩ := List.mem_map.1 hd
    exact isDigit_byte (hds c hc)
  have htake : (ds.map byte ++ b :: rest).takeWhile isDigit = ds.map byte := by
    rw [List.takeWhile_append_of_pos hbytes, List.takeWhile_cons_of_neg (by simp [hb]),
      List.append_nil]
  have hdrop : (ds.map byte ++ b :: rest).dropWhile isDigit = b :: rest := by
    rw [List.dropWhile_append_of_pos hbytes, List.dropWhile_cons_of_neg (by simp [hb])]
  have hvalues : (ds.map byte).map digit = ds.map digitValue := by
    rw [List.map_map]
    exact List.map_congr_left fun c hc => digit_byte (hds c hc)
  obtain ⟨d, ds, rfl⟩ := List.exists_cons_of_ne_nil hne
  simp only [digits?, htake, hdrop, ← hvalues]
  rfl

theorem digitValue_eq_zero {c : Char} (h : c.isDigit = true) (hzero : digitValue c = 0) :
    c = '0' := by
  simp only [digitValue, h, if_true] at hzero
  have hlow := (toNat_of_isDigit h).1
  have h48 : '0'.toNat = 48 := rfl
  exact Char.toNat_inj.1 (by omega)

/-- No written number starts with a zero that other digits follow. -/
theorem whole?_toDigits (n : Nat) {b : UInt8} (hb : isDigit b = false) (rest : List UInt8) :
    whole? ((Nat.toDigits 10 n).map byte ++ b :: rest) =
      some ((Nat.toDigits 10 n).map digitValue, b :: rest) := by
  have hdigits : ∀ d ∈ Nat.toDigits 10 n, d.isDigit = true :=
    fun d hd => Nat.isDigit_of_mem_toDigits (by decide) (by decide) hd
  rw [whole?, digits?_append hdigits (toDigits_ne_nil n) hb]
  split
  · rename_i heq
    obtain ⟨c, ds, hcs⟩ := List.exists_cons_of_ne_nil (toDigits_ne_nil n)
    simp only [hcs, List.map_cons, Option.some.injEq, Prod.mk.injEq, List.cons.injEq] at heq
    have hc : c = '0' := digitValue_eq_zero (hdigits c (by simp [hcs])) heq.1.1
    have hn := @head_toDigits n (by simp [hcs, hc])
    subst hn
    cases hcs
    simp at heq
  · rfl

theorem number?_toDigits (negative : Bool) (n : Nat) {b : UInt8} (hb : endsNumber b = true)
    (rest : List UInt8) : number? negative ((Nat.toDigits 10 n).map byte ++ b :: rest) =
      some (.number ⟨negative, (Nat.toDigits 10 n).map digitValue, [], none⟩, b :: rest) := by
  simp only [endsNumber, Bool.and_eq_true, Bool.not_eq_true', bne_iff_ne, ne_eq] at hb
  obtain ⟨⟨⟨hdigit, hpoint⟩, hlower⟩, hupper⟩ := hb
  have hfraction : fraction? (b :: rest) = some ([], b :: rest) := by simp [fraction?, hpoint]
  have hexponent : exponent? (b :: rest) = some (none, b :: rest) := by
    simp [exponent?, hlower, hupper]
  simp only [number?, whole?_toDigits n hdigit, hfraction, hexponent, Option.bind_eq_bind,
    Option.bind_some]

theorem utf8_decimal (n : Nat) : utf8 (decimal n) = (Nat.toDigits 10 n).map byte := by
  refine utf8_ofList fun c hc => ?_
  have hdigit : c.isDigit = true := Nat.isDigit_of_mem_toDigits (by decide) (by decide) hc
  exact Nat.lt_of_le_of_lt (toNat_of_isDigit hdigit).2 (by decide)

theorem value?_digit {d : UInt8} (hd : isDigit d = true) (fuel : Nat) (bs : List UInt8) :
    value? (fuel + 1) (d :: bs) = number? false (d :: bs) := by
  have hne : ∀ x, isDigit x = false → d ≠ x := by
    rintro x hx rfl
    simp [hd] at hx
  have hblank : isBlank d = false := by
    simp [isBlank, hne (byte ' ') rfl, hne (byte '\n') rfl, hne (byte '\t') rfl,
      hne (byte '\r') rfl]
  rw [value?, skipBlanks, List.dropWhile_cons_of_neg (by simp [hblank])]
  simp [hd, hne (byte 'n') rfl, hne (byte 't') rfl, hne (byte 'f') rfl, hne (byte '"') rfl,
    hne (byte '-') rfl]

/-- A whole number is read up to the first byte that cannot belong to it. -/
theorem value?_signedDecimal (n : Int) {b : UInt8} (hb : endsNumber b = true) (fuel : Nat)
    (rest : List UInt8) : value? (fuel + 1) (utf8 (signedDecimal n) ++ b :: rest) =
      some (ofInt n, b :: rest) := by
  rw [ofInt]
  by_cases hn : n < 0
  · have hsign : utf8 "-" = [byte '-'] := utf8_plain (by decide)
    rw [signedDecimal, if_pos hn, utf8_append, hsign, utf8_decimal, List.append_assoc,
      decide_eq_true hn, ← number?_toDigits true n.natAbs hb rest]
    rfl
  · obtain ⟨c, cs, hcs⟩ := List.exists_cons_of_ne_nil (toDigits_ne_nil n.natAbs)
    have hc : c.isDigit = true :=
      Nat.isDigit_of_mem_toDigits (by decide) (by decide) (hcs ▸ List.mem_cons_self)
    rw [signedDecimal, if_neg hn, utf8_decimal, decide_eq_false hn,
      ← number?_toDigits false n.natAbs hb rest, hcs]
    exact value?_digit (isDigit_byte hc) fuel _

theorem foldl_digitValue (n : Nat) :
    ((Nat.toDigits 10 n).map digitValue).foldl (fun m d => m * 10 + d) 0 = n := by
  rw [List.foldl_map]
  exact ofDigits_toDigits n

/-- A whole number within the bounds is taken for what it is. -/
theorem int?_ofInt {low high n : Int} (hlow : Word.minInt64 ≤ n) (hhigh : n ≤ Word.maxNat64)
    (h : low ≤ n ∧ n ≤ high) : int? low high (ofInt n) = some n := by
  have hvalue : (Numeral.mk (decide (n < 0)) ((Nat.toDigits 10 n.natAbs).map digitValue) []
      none).value? = some (.int n) := by
    simp only [Numeral.value?, List.isEmpty_nil, Option.isNone_none, Bool.and_self, if_true,
      foldl_digitValue, decide_eq_true_eq]
    by_cases hn : n < 0
    · have habs : -(n.natAbs : Int) = n := by omega
      rw [if_pos hn, habs, if_pos ⟨by omega, hlow⟩]
    · have habs : (n.natAbs : Int) = n := by omega
      rw [if_neg hn, if_pos (by omega), habs]
  simp only [ofInt, int?, hvalue, if_pos h]

theorem nat?_ofInt {high n : Nat} (hhigh : n ≤ Word.maxNat64) (h : n ≤ high) :
    nat? high (ofInt n) = some n := by
  have hlow : Word.minInt64 ≤ n := Int.le_trans (by decide) (Int.natCast_nonneg n)
  rw [nat?, int?_ofInt hlow (by omega) ⟨Int.natCast_nonneg n, by omega⟩]
  rfl

/-! ## Objects -/

/-- The members of an object of whole numbers. -/
def intMembers (ms : List (String × Int)) : List (String × Json) := ms.map fun m => (m.1, .int m.2)

/-- What a member is read as. -/
def ofIntMember (m : String × Int) : List UInt8 × Raw := (utf8 m.1, ofInt m.2)

/-- The text of a member. -/
def memberText (m : String × Int) : String := quote m.1 ++ ":" ++ compact (.int m.2)

/-- The text of the members of an object. -/
def membersText (ms : List (String × Int)) : String :=
  String.intercalate "," (compactMembers (intMembers ms))

theorem membersText_cons_cons (m m' : String × Int) (ms : List (String × Int)) :
    membersText (m :: m' :: ms) = memberText m ++ "," ++ membersText (m' :: ms) :=
  String.intercalate_cons_cons

theorem utf8_memberText {m : String × Int} (h : Plain m.1) :
    utf8 (memberText m) =
      byte '"' :: (utf8 m.1 ++ byte '"' :: byte ':' :: utf8 (signedDecimal m.2)) := by
  have hquote : utf8 "\"" = [byte '"'] := @utf8_ofList ['"'] (by simp)
  have hcolon : utf8 ":" = [byte ':'] := utf8_plain (by decide)
  rw [memberText, quote_plain h, compact, utf8_append, utf8_append, utf8_append, utf8_append,
    hquote, hcolon]
  simp

theorem skipBlanks_cons {b : UInt8} (h : isBlank b = false) (bs : List UInt8) :
    skipBlanks (b :: bs) = b :: bs :=
  List.dropWhile_cons_of_neg (by simp [h])

/-- One member is a step: its name, its number, and the byte that follows. -/
theorem members?_memberText {m : String × Int} (h : Plain m.1) {b : UInt8}
    (hb : endsNumber b = true) (hblank : isBlank b = false) (fuel : Nat) (rest : List UInt8) :
    members? (fuel + 2) (utf8 (memberText m) ++ b :: rest) =
      if b == byte '\x7d' then some ([ofIntMember m], rest)
      else if b == byte ',' then
        (members? (fuel + 1) rest).map fun r => (ofIntMember m :: r.1, r.2)
      else none := by
  have hquote (bs : List UInt8) := @skipBlanks_cons (byte '"') rfl bs
  have hcolon (bs : List UInt8) := @skipBlanks_cons (byte ':') rfl bs
  rw [utf8_memberText h]
  simp only [List.cons_append, List.append_assoc, members?, hquote, bne_self_eq_false,
    Bool.false_eq_true, if_false, string?_plain h, hcolon, value?_signedDecimal m.2 hb,
    skipBlanks_cons hblank]
  rfl

/-- The members of an object are read up to its closing brace. -/
theorem members?_membersText {ms : List (String × Int)} (hne : ms ≠ [])
    (h : ∀ m ∈ ms, Plain m.1) {fuel : Nat} (hfuel : ms.length < fuel) (rest : List UInt8) :
    members? fuel (utf8 (membersText ms) ++ byte '\x7d' :: rest) =
      some (ms.map ofIntMember, rest) := by
  induction ms generalizing fuel with
  | nil => exact absurd rfl hne
  | cons m ms ih =>
    obtain ⟨fuel, rfl⟩ : ∃ k, fuel = k + 2 := ⟨fuel - 2, by simp at hfuel; omega⟩
    have hm := h m (by simp)
    cases ms with
    | nil => exact members?_memberText hm rfl rfl fuel rest
    | cons m' ms =>
      have hcomma : utf8 "," = [byte ','] := utf8_plain (by decide)
      have hmore : members? (fuel + 1) _ = _ :=
        ih (by simp) (fun x hx => h x (by simp [hx])) (by simpa using hfuel)
      rw [membersText_cons_cons, utf8_append, utf8_append, hcomma, List.append_assoc,
        List.append_assoc, List.singleton_append, members?_memberText hm rfl rfl, hmore]
      rfl

/-- The members start with a quote and take at least a byte each. -/
theorem utf8_membersText {ms : List (String × Int)} (hne : ms ≠ []) (h : ∀ m ∈ ms, Plain m.1) :
    ∃ bs, utf8 (membersText ms) = byte '"' :: bs ∧ ms.length ≤ bs.length := by
  induction ms with
  | nil => exact absurd rfl hne
  | cons m ms ih =>
    have hm := utf8_memberText (h m (by simp))
    cases ms with
    | nil =>
      refine ⟨_, hm, ?_⟩
      simp only [List.length_append, List.length_cons, List.length_nil]
      omega
    | cons m' ms =>
      obtain ⟨bs, hbs, hlen⟩ := ih (by simp) fun x hx => h x (by simp [hx])
      rw [membersText_cons_cons, utf8_append, utf8_append, hm, hbs, List.append_assoc,
        List.cons_append]
      refine ⟨_, rfl, ?_⟩
      simp only [List.length_append, List.length_cons] at hlen ⊢
      omega

/-- The text of an object of whole numbers reads as its members. -/
theorem read?_bytes {ms : List (String × Int)} (hne : ms ≠ []) (h : ∀ m ∈ ms, Plain m.1) :
    read? (Json.object (intMembers ms)).bytes = some (.object (ms.map ofIntMember)) := by
  have hopen : utf8 "\x7b" = [byte '\x7b'] := utf8_plain (by decide)
  have hclose : utf8 "\x7d" = [byte '\x7d'] := utf8_plain (by decide)
  have hbytes : (Json.object (intMembers ms)).bytes =
      byte '\x7b' :: (utf8 (membersText ms) ++ [byte '\x7d']) := by
    show utf8 ("\x7b" ++ membersText ms ++ "\x7d") = _
    rw [utf8_append, utf8_append, hopen, hclose]
    rfl
  obtain ⟨bs, hbs, hlen⟩ := utf8_membersText hne h
  have hmembers := @members?_membersText ms hne h
    (byte '\x7b' :: (utf8 (membersText ms) ++ [byte '\x7d'])).length (by simp [hbs]; omega) []
  rw [hbytes, read?, value?, skipBlanks_cons rfl]
  rw [hbs] at hmembers ⊢
  have hquote (bs : List UInt8) := @skipBlanks_cons (byte '"') rfl bs
  simp only [List.cons_append, hquote] at hmembers ⊢
  rw [hmembers]
  rfl

end Raw

end ListQuery.Json
