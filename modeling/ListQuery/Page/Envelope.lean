/-
Envelopes: a JSON value as a text for a client to hand back and not to look into. Its own text is
compressed and then written in the alphabet that needs no escaping in an address.
-/
import ListQuery.Codec.Base64
import ListQuery.Codec.Deflate.Stored
import ListQuery.Json.Decode

namespace ListQuery.Envelope

/-- Which layer of an envelope does not read. -/
inductive Layer where
  | base64 | compression | json
deriving DecidableEq, Repr

/-- The envelope of bytes. -/
def wrap (bytes : List UInt8) : String :=
  String.ofList (Base64.encode Base64.urlSafe (Deflate.store bytes))

/-- The bytes in an envelope. -/
def unwrap (token : String) : Except Layer (List UInt8) :=
  match Base64.decode? Base64.urlSafe token.toList with
  | none => .error .base64
  | some packed =>
    match Deflate.inflate? packed with
    | none => .error .compression
    | some bytes => .ok bytes

/-- The envelope of a value. -/
def encode (v : Json) : String := wrap v.bytes

/-- The value in an envelope, as `read` takes it from the bytes. -/
def decodeWith {α : Type} (read : List UInt8 → Option α) (token : String) : Except Layer α :=
  match unwrap token with
  | .error layer => .error layer
  | .ok bytes =>
    match read bytes with
    | some a => .ok a
    | none => .error .json

/-- The value in an envelope. -/
def decode (token : String) : Except Layer Json := decodeWith Json.ofBytes? token

end ListQuery.Envelope
