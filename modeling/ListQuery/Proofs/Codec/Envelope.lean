/-
What is put into an envelope comes out of it. Characters give back the bytes they were written for
(`decode?_encode`), and stored blocks give back the bytes that were put into them, however many
blocks there are (`inflate?_store`). Nothing but the latter is needed of the way in which bytes are
packed, so envelopes are taken here with any `Packing`.
-/
import ListQuery.Page.Envelope

namespace ListQuery

namespace Base64

/-- Every number below 64 has a character of its own. -/
def Alphabet.Faithful (a : Alphabet) : Prop := ∀ n < 64, a.value? (a.char n) = some n

theorem urlSafe_faithful : urlSafe.Faithful := by unfold Alphabet.Faithful; decide

/-- The numbers below 64 that bytes are cut into. -/
def sextets : List UInt8 → List Nat
  | [] => []
  | [x] => [x.toNat / 4, x.toNat % 4 * 16]
  | [x, y] => [x.toNat / 4, x.toNat % 4 * 16 + y.toNat / 16, y.toNat % 16 * 4]
  | x :: y :: z :: r =>
    x.toNat / 4 :: (x.toNat % 4 * 16 + y.toNat / 16) :: (y.toNat % 16 * 4 + z.toNat / 64) ::
      z.toNat % 64 :: sextets r

theorem encode_eq_map (a : Alphabet) (bytes : List UInt8) :
    encode a bytes = (sextets bytes).map a.char := by
  fun_induction encode a bytes with
  | case1 => rfl
  | case2 => rfl
  | case3 => rfl
  | case4 x y z r ih => simp only [sextets, List.map_cons, ih]

theorem sextets_lt (bytes : List UInt8) : ∀ n ∈ sextets bytes, n < 64 := by
  fun_induction sextets bytes with
  | case1 => simp
  | case2 x =>
    have := x.toNat_lt
    simp only [List.mem_cons, List.not_mem_nil, or_false, forall_eq_or_imp, forall_eq]
    omega
  | case3 x y =>
    have := x.toNat_lt
    have := y.toNat_lt
    simp only [List.mem_cons, List.not_mem_nil, or_false, forall_eq_or_imp, forall_eq]
    omega
  | case4 x y z r ih =>
    have := x.toNat_lt
    have := y.toNat_lt
    have := z.toNat_lt
    simp only [List.mem_cons, forall_eq_or_imp]
    exact ⟨by omega, by omega, by omega, by omega, ih⟩

theorem toUInt8_eq_of {n : Nat} {x : UInt8} (h : n = x.toNat) : n.toUInt8 = x := by
  rw [h]
  exact UInt8.ofNat_toNat

theorem ofSextets?_sextets (bytes : List UInt8) : ofSextets? (sextets bytes) = some bytes := by
  fun_induction sextets bytes with
  | case1 => rfl
  | case2 x =>
    have hx : (x.toNat / 4 * 4 + x.toNat % 4 * 16 / 16).toUInt8 = x := toUInt8_eq_of (by omega)
    rw [ofSextets?, if_pos (by omega), hx]
  | case3 x y =>
    have := y.toNat_lt
    have hx : (x.toNat / 4 * 4 + (x.toNat % 4 * 16 + y.toNat / 16) / 16).toUInt8 = x :=
      toUInt8_eq_of (by omega)
    have hy : ((x.toNat % 4 * 16 + y.toNat / 16) % 16 * 16 + y.toNat % 16 * 4 / 4).toUInt8 = y :=
      toUInt8_eq_of (by omega)
    rw [ofSextets?, if_pos (by omega), hx, hy]
  | case4 x y z r ih =>
    have := y.toNat_lt
    have := z.toNat_lt
    have hx : (x.toNat / 4 * 4 + (x.toNat % 4 * 16 + y.toNat / 16) / 16).toUInt8 = x :=
      toUInt8_eq_of (by omega)
    have hy : ((x.toNat % 4 * 16 + y.toNat / 16) % 16 * 16 +
        (y.toNat % 16 * 4 + z.toNat / 64) / 4).toUInt8 = y := toUInt8_eq_of (by omega)
    have hz : ((y.toNat % 16 * 4 + z.toNat / 64) % 4 * 64 + z.toNat % 64).toUInt8 = z :=
      toUInt8_eq_of (by omega)
    rw [ofSextets?, ih, Option.map_some, hx, hy, hz]

theorem mapM_value?_map_char {a : Alphabet} (ha : a.Faithful) {ns : List Nat}
    (h : ∀ n ∈ ns, n < 64) : (ns.map a.char).mapM a.value? = some ns := by
  induction ns with
  | nil => rfl
  | cons n ns ih =>
    rw [List.map_cons, List.mapM_cons, ha n (h n (by simp)), ih fun m hm => h m (by simp [hm])]
    rfl

/-- Characters give back the bytes that they were written for. -/
theorem decode?_encode {a : Alphabet} (ha : a.Faithful) (bytes : List UInt8) :
    decode? a (encode a bytes) = some bytes := by
  rw [decode?, encode_eq_map, mapM_value?_map_char ha (sextets_lt bytes), Option.bind_some,
    ofSextets?_sextets]

end Base64

/-! ## Stored blocks -/

namespace Deflate

theorem toNat_pair {n : Nat} (h : n ≤ maxStored) :
    n.toUInt8.toNat + 256 * (n / 256).toUInt8.toNat = n := by
  have hlow : n.toUInt8.toNat = n % 256 := UInt8.toNat_ofNat'
  have hhigh : (n / 256).toUInt8.toNat = n / 256 % 256 := UInt8.toNat_ofNat'
  unfold maxStored at h
  omega

/-- A stored block is read as the bytes in it, whatever stands before and after. -/
theorem stored?_block {bytes : List UInt8} (h : bytes.length ≤ maxStored) (bits : List Bool)
    (rest : List UInt8) (out : Array UInt8) :
    stored? ⟨bits, pair bytes.length ++ pair (65535 - bytes.length) ++ bytes ++ rest⟩ out =
      some (out ++ bytes, .ofBytes rest) := by
  have hlength := toNat_pair h
  have hcomplement := toNat_pair (Nat.sub_le maxStored bytes.length)
  simp only [stored?, BitReader.align, pair, List.cons_append, List.nil_append]
  rw [hlength, show 65535 = maxStored from rfl, hcomplement, if_pos]
  · simp
  · simp only [List.length_append]
    omega

/-- The bits of the first byte of a stored block: whether it is the last, its type, and filling. -/
theorem bit?_storedBlock (last : Bool) (body : List UInt8) :
    (BitReader.ofBytes ((if last then 1 else 0) :: body)).bit? =
      some (last, ⟨List.replicate 7 false, body⟩) := by
  cases last <;> rfl

/-- One stored block is a step. -/
theorem blocks?_storedBlock {bytes : List UInt8} (h : bytes.length ≤ maxStored) (last : Bool)
    (rest : List UInt8) (fuel : Nat) (out : Array UInt8) :
    blocks? (fuel + 1) (.ofBytes (storedBlock last bytes ++ rest)) out =
      if last then some (out ++ bytes) else blocks? fuel (.ofBytes rest) (out ++ bytes) := by
  have hkind (body : List UInt8) : BitReader.number? 2 ⟨List.replicate 7 false, body⟩ =
      some (0, ⟨List.replicate 5 false, body⟩) := rfl
  have hblock := stored?_block h (List.replicate 5 false) rest out
  simp only [blocks?, storedBlock, List.cons_append, bit?_storedBlock, hkind, block?, hblock,
    Option.bind_eq_bind, Option.bind_some]

theorem blocks?_store (bytes : List UInt8) (fuel : Nat) (h : bytes.length < fuel)
    (out : Array UInt8) : blocks? fuel (.ofBytes (store bytes)) out = some (out ++ bytes) := by
  fun_induction store bytes generalizing fuel out with
  | case1 bytes hshort =>
    obtain ⟨fuel, rfl⟩ : ∃ n, fuel = n + 1 := ⟨fuel - 1, by omega⟩
    rw [← List.append_nil (storedBlock true bytes), blocks?_storedBlock hshort, if_pos rfl]
  | case2 bytes hlong ih =>
    obtain ⟨fuel, rfl⟩ : ∃ n, fuel = n + 1 := ⟨fuel - 1, by omega⟩
    have hfirst : (bytes.take maxStored).length ≤ maxStored := List.length_take_le _ _
    have hfuel : (bytes.drop maxStored).length < fuel := by
      rw [List.length_drop]
      unfold maxStored at hlong ⊢
      omega
    rw [blocks?_storedBlock hfirst, if_neg Bool.false_ne_true, ih fuel hfuel]
    have hwhole : out ++ bytes.take maxStored ++ bytes.drop maxStored = out ++ bytes := by
      apply Array.toList_inj.1
      simp
    rw [hwhole]

theorem length_le_length_store (bytes : List UInt8) : bytes.length < (store bytes).length := by
  fun_induction store bytes with
  | case1 bytes hshort =>
    simp only [storedBlock, pair, List.length_cons, List.length_append]
    omega
  | case2 bytes hlong ih =>
    rw [List.length_drop] at ih
    simp only [List.length_append, storedBlock, pair, List.length_cons, List.length_take]
    unfold maxStored at hlong ih ⊢
    omega

/-- Stored blocks give back the bytes that were put into them. -/
theorem inflate?_store (bytes : List UInt8) : inflate? (store bytes) = some bytes := by
  have hfuel : bytes.length < (BitReader.ofBytes (store bytes)).remaining := by
    have := length_le_length_store bytes
    simp only [BitReader.remaining, BitReader.ofBytes]
    omega
  rw [inflate?, blocks?_store bytes _ hfuel]
  simp

/-- A way to write bytes in the compressed format: what it writes reads as the bytes. -/
structure Packing where
  pack : List UInt8 → List UInt8
  inflate?_pack : ∀ bytes, inflate? (pack bytes) = some bytes

/-- Bytes put into stored blocks as they are. -/
def Packing.stored : Packing := ⟨store, inflate?_store⟩

end Deflate

namespace Envelope

open Deflate

/-- The envelope of bytes that are packed in some way. -/
def wrapWith (p : Packing) (bytes : List UInt8) : String :=
  String.ofList (Base64.encode Base64.urlSafe (p.pack bytes))

theorem unwrap_wrapWith (p : Packing) (bytes : List UInt8) :
    unwrap (wrapWith p bytes) = .ok bytes := by
  rw [unwrap, wrapWith, String.toList_ofList, Base64.decode?_encode Base64.urlSafe_faithful]
  simp only [p.inflate?_pack]

/-- Nothing is packed as nothing, so no envelope is empty. -/
theorem wrapWith_ne_empty (p : Packing) (bytes : List UInt8) : wrapWith p bytes ≠ "" := by
  intro h
  have hunwrap := unwrap_wrapWith p bytes
  rw [h] at hunwrap
  cases hunwrap

/-- What is put into an envelope comes out of it, as far as its text can be read. -/
theorem decodeWith_wrapWith {α : Type} (p : Packing) {read : List UInt8 → Option α}
    {bytes : List UInt8} {a : α} (h : read bytes = some a) :
    decodeWith read (wrapWith p bytes) = .ok a := by
  simp only [decodeWith, unwrap_wrapWith, h]

end Envelope

end ListQuery
