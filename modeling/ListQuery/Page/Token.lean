/-
Page tokens: where the next page of a list starts, bound to the request that it belongs to, so that
a token cannot be used with a request for something else.
-/
import ListQuery.Codec.Sha256
import ListQuery.Number.Word
import ListQuery.Page.Envelope

namespace ListQuery

open Number

/-- Where a page starts, and the checksum of the request. -/
structure PageToken where
  offset : Int64
  checksum : UInt32
deriving DecidableEq, Repr

namespace PageToken

/-- The first four bytes of the digest of a request's text, as a number. -/
def requestChecksum (request : Json) : UInt32 := (Sha256.hash request.bytes).a

/-- The first page of a request. -/
def first (request : Json) : PageToken := ⟨0, requestChecksum request⟩

/-- The page after one of `size` items. Neither the step nor the offset grows beyond the largest
offset. -/
def next (t : PageToken) (size : Nat) : PageToken :=
  let step : Int := min size Word.maxInt64
  { t with offset := Int64.ofInt (min (t.offset.toInt + step) Word.maxInt64) }

def toJson (t : PageToken) : Json :=
  .object [("offset", .int t.offset.toInt), ("request_checksum", .int t.checksum.toNat)]

open Json.Raw (record? required? int? nat?)

def ofRaw? (r : Json.Raw) : Option PageToken := do
  match ← record? ["offset", "request_checksum"] Json.maxDepth r with
  | [offset, checksum] =>
    some {
      offset := Int64.ofInt (← required? (int? Word.minInt64 Word.maxInt64) offset)
      checksum := UInt32.ofNat (← required? (nat? Word.maxNat32) checksum) }
  | _ => none

def ofBytes? (bytes : List UInt8) : Option PageToken := (Json.Raw.read? bytes).bind ofRaw?

/-- The token for a client. -/
def encode (t : PageToken) : String := Envelope.encode t.toJson

/-- The token that a client has handed back, for whatever request. -/
def decode (text : String) : Except Envelope.Layer PageToken := Envelope.decodeWith ofBytes? text

inductive Refusal where
  | unreadable (layer : Envelope.Layer)
  | checksumMismatch (expected found : UInt32)
  | negativeOffset (offset : Int64)
deriving DecidableEq, Repr

/-- What is said about a token that reads but does not fit. -/
def Refusal.message? : Refusal → Option String
  | .unreadable _ => none
  | .checksumMismatch _ _ => some "Page token was issued for a different request"
  | .negativeOffset offset =>
    some ("Page token has a negative offset: " ++ Text.signedDecimal offset.toInt)

/-- The token of a client, for the request that it came with. No text is the first page. -/
def parse (text : String) (request : Json) : Except Refusal PageToken :=
  if text = "" then .ok (first request)
  else
    match decode text with
    | .error layer => .error (.unreadable layer)
    | .ok t =>
      let expected := requestChecksum request
      if t.checksum ≠ expected then .error (.checksumMismatch expected t.checksum)
      else if t.offset < 0 then .error (.negativeOffset t.offset)
      else .ok t

end PageToken

end ListQuery
