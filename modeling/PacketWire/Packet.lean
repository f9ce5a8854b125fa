import PacketWire.VarInt
import PacketWire.Pool

/-!
# Packets

A packet is an id followed by a payload. An inbound `Packet` either shares the bytes it was
received in or owns a pooled buffer, which `release` and `intoPayload` give back. An
`Outgoing` packet is one to be sent.
-/

namespace PacketWire

/-- Where the bytes of a packet live. -/
inductive Storage where
  | shared (bytes : Bytes)
  | pooled (buffer : Buffer)
  deriving DecidableEq, Repr

def Storage.bytes : Storage → Bytes
  | .shared bs => bs
  | .pooled b => b.bytes

structure Packet where
  id : Int32
  storage : Storage
  /-- Where the id begins in the storage. -/
  start : Nat
  /-- Where the payload begins in the storage. -/
  payloadStart : Nat
  deriving DecidableEq, Repr

namespace Packet

/-- The packet whose id begins at `start`. -/
def parse (storage : Storage) (start : Nat) : Except WireError Packet :=
  match VarInt.scan32 (storage.bytes.drop start) with
  | .found id used => .ok { id, storage, start, payloadStart := start + used }
  | .needMore => .error (.invalidFrame .missingId)
  | .invalid => .error .malformedVarInt

def ofShared (body : Bytes) : Except WireError Packet := parse (.shared body) 0

/-- A packet that takes over `buffer`. A buffer without a packet goes back to the pool. -/
def ofPooled (r : Reserves) (buffer : Buffer) (start : Nat) :
    Except WireError Packet × Reserves :=
  match parse (.pooled buffer) start with
  | .ok p => (.ok p, r)
  | .error e => (.error e, r.release buffer)

/-- The id and the payload as they are on the wire. -/
def body (p : Packet) : Bytes := p.storage.bytes.drop p.start

def payload (p : Packet) : Bytes := p.storage.bytes.drop p.payloadStart

def isPooled (p : Packet) : Bool :=
  match p.storage with
  | .shared _ => false
  | .pooled _ => true

def describe (p : Packet) : String :=
  "Packet \x7b id: " ++ toString p.id.toInt ++ ", payload_len: " ++ toString p.payload.length ++
    ", pooled: " ++ toString p.isPooled ++ " \x7d"

/-- Gives the packet's buffer back, if it owns one. -/
def release (p : Packet) (r : Reserves) : Reserves :=
  match p.storage with
  | .shared _ => r
  | .pooled b => r.release b

/-- The payload on its own; the packet's buffer goes back. -/
def intoPayload (p : Packet) (r : Reserves) : Bytes × Reserves := (p.payload, p.release r)

end Packet

structure Outgoing where
  id : Int32
  payload : Bytes
  deriving DecidableEq, Repr, Inhabited

namespace Outgoing

/-- The id and the payload as they go on the wire. -/
def body (p : Outgoing) : Bytes := VarInt.encode32 p.id ++ p.payload

/-- The length that is compared with a compression threshold. -/
def bodyLength (p : Outgoing) : Nat := VarInt.length32 p.id + p.payload.length

end Outgoing

end PacketWire
