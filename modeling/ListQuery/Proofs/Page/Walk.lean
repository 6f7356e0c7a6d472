/-
Walking the pages of a list. The text of a token reads as the token (`ofBytes?_toJson`), also in an
envelope that is packed in any way, so a token for a request is refused exactly for what is in it
(`parse_encodeWith`). Main statement: a walk over pages of any sizes loses nothing
(`walk_lossless`).
-/
import ListQuery.Page.Token
import ListQuery.Proofs.Codec.Envelope
import ListQuery.Proofs.Json.Records

namespace ListQuery.PageToken

open Number Deflate

/-- The members of a token. -/
def members (t : PageToken) : List (String × Int) :=
  [("offset", t.offset.toInt), ("request_checksum", t.checksum.toNat)]

theorem members_plain (t : PageToken) : ∀ m ∈ t.members, Json.Plain m.1 := by
  simp only [members, List.forall_mem_cons]
  decide

theorem offset_bounds (t : PageToken) :
    Word.minInt64 ≤ t.offset.toInt ∧ t.offset.toInt ≤ Word.maxInt64 :=
  ⟨t.offset.le_toInt, t.offset.toInt_le⟩

theorem checksum_le (t : PageToken) : t.checksum.toNat ≤ Word.maxNat32 :=
  Nat.le_of_lt_succ t.checksum.toNat_lt

theorem slots?_members (t : PageToken) :
    Json.Raw.slots? ["offset", "request_checksum"]
        (.object (t.members.map Json.Raw.ofIntMember)) =
      some [some (.ofInt t.offset.toInt), some (.ofInt t.checksum.toNat)] := by
  have hoffset : Json.Raw.text? (Json.utf8 "offset") = some "offset" :=
    Json.Raw.text?_plain (by decide)
  have hchecksum : Json.Raw.text? (Json.utf8 "request_checksum") = some "request_checksum" :=
    Json.Raw.text?_plain (by decide)
  simp [Json.Raw.slots?, members, Json.Raw.ofIntMember, hoffset, hchecksum]

/-- The text of a token reads as the token. -/
theorem ofBytes?_toJson (t : PageToken) : ofBytes? t.toJson.bytes = some t := by
  have hjson : t.toJson = .object (Json.Raw.intMembers t.members) := rfl
  have hne : t.members ≠ [] := List.cons_ne_nil _ _
  obtain ⟨hlow, hhigh⟩ := t.offset_bounds
  have hchecksum := t.checksum_le
  have hoffset := Json.Raw.int?_ofInt hlow (Int.le_trans hhigh (by decide)) ⟨hlow, hhigh⟩
  have hsum := Json.Raw.nat?_ofInt (Nat.le_trans hchecksum (by decide)) hchecksum
  rw [ofBytes?, hjson, Json.Raw.read?_bytes hne t.members_plain, Option.bind_some, ofRaw?,
    Json.Raw.record?, if_neg (by decide), slots?_members]
  simp [Json.Raw.required?, hoffset, hsum]

/-- The token for a client, packed in some way. -/
def encodeWith (p : Packing) (t : PageToken) : String := Envelope.wrapWith p t.toJson.bytes

theorem encodeWith_stored : encodeWith .stored = encode := rfl

theorem decode_encodeWith (p : Packing) (t : PageToken) : decode (t.encodeWith p) = .ok t :=
  Envelope.decodeWith_wrapWith p t.ofBytes?_toJson

/-- What becomes of a token that was handed out: it is refused for a request of another checksum,
then for an offset before the first item, and taken as it is otherwise. -/
theorem parse_encodeWith (p : Packing) (t : PageToken) (request : Json) :
    parse (t.encodeWith p) request =
      if t.checksum ≠ requestChecksum request then
        .error (.checksumMismatch (requestChecksum request) t.checksum)
      else if t.offset < 0 then .error (.negativeOffset t.offset)
      else .ok t := by
  have hne : t.encodeWith p ≠ "" := Envelope.wrapWith_ne_empty p _
  simp only [parse, if_neg hne, decode_encodeWith]

/-! ## Walking -/

theorem toInt_next {t : PageToken} (h : 0 ≤ t.offset.toInt) (size : Nat) :
    (t.next size).offset.toInt = min (t.offset.toInt + size) Word.maxInt64 := by
  have hle := t.offset_bounds.2
  have hnext : (t.next size).offset.toInt =
      min (t.offset.toInt + min (size : Int) Word.maxInt64) Word.maxInt64 := by
    refine Int64.toInt_ofInt_of_le ?_ ?_ <;> unfold Word.maxInt64 at * <;> omega
  rw [hnext]
  unfold Word.maxInt64 at *
  omega

/-- Follows the pages of a request from a token on: after each page, whose size is given, the next
token is handed out as a text and read back. Gives the texts and the last token. -/
def walk (p : Packing) (request : Json) :
    PageToken → List Nat → Except Refusal (List String × PageToken)
  | t, [] => .ok ([], t)
  | t, size :: sizes => do
    let text := (t.next size).encodeWith p
    let t ← parse text request
    let (texts, last) ← walk p request t sizes
    return (text :: texts, last)

/-- A token of a request, `total` items after the first one or at the largest offset. -/
structure At (request : Json) (total : Nat) (t : PageToken) : Prop where
  offset : t.offset.toInt = min (total : Int) Word.maxInt64
  checksum : t.checksum = requestChecksum request

variable {request : Json} {total : Nat} {t : PageToken}

theorem At.first (request : Json) : At request 0 (first request) := ⟨rfl, rfl⟩

theorem At.nonneg (h : At request total t) : 0 ≤ t.offset.toInt := by
  rw [h.offset]
  unfold Word.maxInt64
  omega

theorem At.next (h : At request total t) (size : Nat) :
    At request (total + size) (t.next size) := by
  refine ⟨?_, h.checksum⟩
  rw [toInt_next h.nonneg, h.offset]
  unfold Word.maxInt64
  omega

/-- Read back for its own request, a token is what it was. -/
theorem At.parse_encodeWith (h : At request total t) (p : Packing) :
    parse (t.encodeWith p) request = .ok t := by
  have hoffset : ¬t.offset < 0 := by
    rw [Int64.lt_iff_toInt_lt]
    exact Int.not_lt.2 h.nonneg
  rw [PageToken.parse_encodeWith, if_neg (not_not_intro h.checksum), if_neg hoffset]

/-- A text that only requests of the same checksum can be followed with. -/
def Bound (request : Json) (text : String) : Prop :=
  ∀ other, requestChecksum other ≠ requestChecksum request →
    parse text other = .error (.checksumMismatch (requestChecksum other) (requestChecksum request))

theorem At.bound (h : At request total t) (p : Packing) : Bound request (t.encodeWith p) := by
  intro other hother
  rw [PageToken.parse_encodeWith, h.checksum, if_pos hother.symm]

/-- From a token of the request on, a walk takes every page and adds up their sizes. -/
theorem At.walk (h : At request total t) (p : Packing) (sizes : List Nat) :
    ∃ texts last, walk p request t sizes = .ok (texts, last) ∧ texts.length = sizes.length ∧
      At request (total + sizes.sum) last ∧ ∀ text ∈ texts, Bound request text := by
  induction sizes generalizing total t with
  | nil => exact ⟨[], t, rfl, rfl, h, by simp⟩
  | cons size sizes ih =>
    have hnext := h.next size
    obtain ⟨texts, last, hwalk, hlen, hlast, hbound⟩ := ih hnext
    refine ⟨(t.next size).encodeWith p :: texts, last, ?_, ?_, ?_, ?_⟩
    · rw [PageToken.walk, hnext.parse_encodeWith]
      show (PageToken.walk p request (t.next size) sizes >>= _) = _
      rw [hwalk]
      rfl
    · rw [List.length_cons, hlen, List.length_cons]
    · rw [List.sum_cons, ← Nat.add_assoc]
      exact hlast
    · exact List.forall_mem_cons.2 ⟨hnext.bound p, hbound⟩

/-- Page walking loses nothing, in whatever way the tokens are packed. Every token reads back from
its text. Starting without a token, a walk over pages of any sizes succeeds at each step and ends
where their sizes add up to, or at the largest offset, with the checksum of the request; each text
that was handed out is refused for a request of another checksum. A token with the right checksum
and a negative offset is refused for that. -/
theorem walk_lossless (p : Packing) :
    (∀ t, decode (encodeWith p t) = .ok t) ∧
      ∀ request,
        (∀ sizes, ∃ start texts last, parse "" request = .ok start ∧
          walk p request start sizes = .ok (texts, last) ∧ texts.length = sizes.length ∧
          last.offset.toInt = min (sizes.sum : Int) Word.maxInt64 ∧
          last.checksum = start.checksum ∧ start.checksum = requestChecksum request ∧
          ∀ text ∈ texts, ∀ other, requestChecksum other ≠ requestChecksum request →
            parse text other =
              .error (.checksumMismatch (requestChecksum other) (requestChecksum request))) ∧
        ∀ t : PageToken, t.checksum = requestChecksum request → t.offset < 0 →
          parse (t.encodeWith p) request = .error (.negativeOffset t.offset) := by
  refine ⟨decode_encodeWith p, fun request => ⟨fun sizes => ?_, fun t hsum hneg => ?_⟩⟩
  · obtain ⟨texts, last, hwalk, hlen, hlast, hbound⟩ := (At.first request).walk p sizes
    rw [Nat.zero_add] at hlast
    exact ⟨first request, texts, last, rfl, hwalk, hlen, hlast.offset, hlast.checksum, rfl, hbound⟩
  · rw [PageToken.parse_encodeWith, if_neg (not_not_intro hsum), if_pos hneg]

/-- A request for the members of a parent. -/
def requestFor (parent : String) : Json := .object [("parent", .string parent)]

/-- Two pages that run over the largest offset, the texts handed back with another request, and a
token that was made up. -/
theorem walk_lossless_saturated :
    requestChecksum (requestFor "shelves/2") ≠ requestChecksum (requestFor "shelves/1") ∧
      ∃ texts last,
        walk .stored (requestFor "shelves/1") (first (requestFor "shelves/1")) [25, 2 ^ 63] =
          .ok (texts, last) ∧
        texts.length = 2 ∧ last.offset.toInt = 9223372036854775807 ∧
        (∀ text ∈ texts, ∃ found, parse text (requestFor "shelves/2") =
          .error (.checksumMismatch (requestChecksum (requestFor "shelves/2")) found)) ∧
        parse (encode ⟨-5, requestChecksum (requestFor "shelves/1")⟩) (requestFor "shelves/1") =
          .error (.negativeOffset (-5)) := by
  have hother : requestChecksum (requestFor "shelves/2") ≠
      requestChecksum (requestFor "shelves/1") := by decide +kernel
  obtain ⟨hwalk, hnegative⟩ := (walk_lossless .stored).2 (requestFor "shelves/1")
  obtain ⟨start, texts, last, hstart, hrun, hlen, hoffset, -, -, hrefused⟩ := hwalk [25, 2 ^ 63]
  cases hstart
  refine ⟨hother, texts, last, hrun, hlen, hoffset, fun text h => ⟨_, hrefused text h _ hother⟩, ?_⟩
  rw [← encodeWith_stored]
  exact hnegative ⟨-5, _⟩ rfl (by decide)

end ListQuery.PageToken
