import PacketWire.Packet
import PacketWire.Codec.Basic

/-!
# Encoding

From packets to frames. Every encoder appends one frame to a byte string, or leaves it alone
and gives an error. `encodeBody` frames bytes that are an id and a payload already, and
`encodePacket` a packet; `put` and `putRaw` also count errors.
-/

namespace PacketWire.Codec

/-- What an encoder did: its verdict, the byte string after it, and the reserves. -/
structure Encoded (α : Type) where
  result : Except WireError α
  out : Bytes
  reserves : Reserves

def checkFrame (c : Codec) (length : Nat) : Except WireError Unit :=
  if c.maxFrame < length then .error (.oversizedPacket length) else .ok ()

def lengthBytes (n : Nat) : Bytes := VarInt.encode32 (Int32.ofNat n)

/-- Appends the frame of `body` to `out`. The verdict says whether it was compressed. -/
def encodeBody (c : Codec) (body out : Bytes) : Except WireError Bool × Bytes :=
  if body.isEmpty then (.error (.invalidFrame .missingId), out)
  else if c.threshold < 0 then
    match c.checkFrame body.length with
    | .error e => (.error e, out)
    | .ok () => (.ok false, out ++ lengthBytes body.length ++ body)
  else if body.length < c.threshold.toInt.toNat then
    match c.checkFrame (body.length + 1) with
    | .error e => (.error e, out)
    | .ok () => (.ok false, out ++ lengthBytes (body.length + 1) ++ [0] ++ body)
  else if c.maxUncompressed < body.length then (.error (.oversizedPacket body.length), out)
  else
    match c.compressor.compress body with
    | none => (.error .compressionFailure, out)
    | some packed =>
      let size := lengthBytes body.length
      let length := VarInt.length32 (Int32.ofNat body.length) + packed.length
      match c.checkFrame length with
      | .error e => (.error e, out)
      | .ok () => (.ok true, out ++ lengthBytes length ++ size ++ packed)

/-- Appends the frame of `p` to `out`. A body that is not compressed is never put together on
its own. -/
def encodeParts (c : Codec) (p : Outgoing) (out : Bytes) : Except WireError Bool × Bytes :=
  let length := p.bodyLength
  if c.threshold < 0 ∨ length < c.threshold.toInt.toNat then
    let marker : Bytes := if c.threshold < 0 then [] else [0]
    match c.checkFrame (length + marker.length) with
    | .error e => (.error e, out)
    | .ok () =>
      (.ok false,
        out ++ lengthBytes (length + marker.length) ++ marker ++ VarInt.encode32 p.id ++ p.payload)
  else c.encodeBody p.body out

def sent (length : Nat) (r : Reserves) : Except WireError Bool × Bytes → Encoded Bool
  | (.ok compressed, out) =>
    { result := .ok compressed, out, reserves := r.count (·.packetEncoded length compressed) }
  | (.error e, out) => { result := .error e, out, reserves := r }

/-- Appends the frame of `p`, and counts it. -/
def encodePacket (c : Codec) (p : Outgoing) (out : Bytes) (r : Reserves) : Encoded Bool :=
  sent p.bodyLength r (c.encodeParts p out)

def errorCounted (e : Encoded Bool) : Encoded Bool :=
  match e.result with
  | .ok _ => e
  | .error _ => { e with reserves := e.reserves.count (·.encodeError) }

/-- Appends the frame of a packet, and counts it or the error. -/
def put (c : Codec) (p : Outgoing) (out : Bytes) (r : Reserves) : Encoded Bool :=
  errorCounted (c.encodePacket p out r)

def putRaw (c : Codec) (body out : Bytes) (r : Reserves) : Encoded Bool :=
  errorCounted (sent body.length r (c.encodeBody body out))

/-- Something to send: a packet, or its id and payload in one piece. -/
inductive Item where
  | packet (p : Outgoing)
  | raw (body : Bytes)
  deriving DecidableEq, Repr

/-- The text that an item puts into a frame. -/
def Item.body : Item → Bytes
  | .packet p => p.body
  | .raw body => body

def putItem (c : Codec) (out : Bytes) (r : Reserves) : Item → Encoded Bool
  | .packet p => c.put p out r
  | .raw body => c.putRaw body out r

end PacketWire.Codec
