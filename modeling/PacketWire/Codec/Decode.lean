import PacketWire.Packet
import PacketWire.Codec.Basic

/-!
# Decoding

From frame bodies to packets. `decodeBody` takes a body in shared memory and `decodePooled`
one in a pooled buffer; both inflate compressed bodies into a pooled buffer of exactly the
declared size. `Codec.next` takes the first frame of a byte string and decodes it.
-/

namespace PacketWire.Codec

open Compression

/-- Inflates a body of exactly `size` bytes into a pooled buffer. -/
def inflate (c : Codec) (packed : Bytes) (size : Nat) (r : Reserves) :
    Except WireError Packet × Reserves :=
  match r.acquire size with
  | (.error e, r) => (.error e, r)
  | (.ok out, r) =>
    let inflation := c.compressor.inflate packed size
    let out := out.overwrite 0 inflation.written
    match inflation.status with
    | .done =>
      if inflation.written.length = size then Packet.ofPooled r out 0
      else (.error (.decompression .sizeMismatch), r.release out)
    | .outputFull => (.error (.decompression .sizeMismatch), r.release out)
    | .corrupt => (.error (.decompression .status), r.release out)

def counted (length : Nat) (compressed : Bool) :
    Except WireError Packet × Reserves → Except WireError Packet × Reserves
  | (.ok p, r) => (.ok p, r.count (·.packetDecoded length compressed))
  | (.error e, r) => (.error e, r)

/-- Decodes a frame body in shared memory. A packet that was not compressed shares it. -/
def decodeBody (c : Codec) (body : Bytes) (r : Reserves) : Except WireError Packet × Reserves :=
  match c.layout body with
  | .error e => (.error e, r)
  | .ok (.raw start) => counted body.length false (Packet.ofShared (body.drop start), r)
  | .ok (.packed start size) =>
    counted body.length true (c.inflate (body.drop start) size r)

/-- Decodes a frame body in a pooled buffer, which goes to a packet that was not compressed, or back
to the pool. -/
def decodePooled (c : Codec) (frame : Buffer) (r : Reserves) :
    Except WireError Packet × Reserves :=
  match c.layout frame.bytes with
  | .error e => (.error e, r.release frame)
  | .ok (.raw start) => counted frame.length false (Packet.ofPooled r frame start)
  | .ok (.packed start size) =>
    let (result, r) := c.inflate (frame.bytes.drop start) size r
    counted frame.length true (result, r.release frame)

/-- The next packet of a byte string, if its frame is complete; the bytes left; and the reserves. -/
structure Taken where
  result : Except WireError (Option Packet)
  left : Bytes
  reserves : Reserves

/-- The packet of the first frame of `bs`. A frame is gone even when its body is refused; a refused
length stays. -/
def next (c : Codec) (bs : Bytes) (r : Reserves) : Taken :=
  match Frame.take c.maxFrame bs with
  | .error e => { result := .error e, left := bs, reserves := r.count (·.decodeError) }
  | .ok none => { result := .ok none, left := bs, reserves := r }
  | .ok (some (body, rest)) =>
    match c.decodeBody body r with
    | (.ok p, r) => { result := .ok (some p), left := rest, reserves := r }
    | (.error e, r) =>
      { result := .error e, left := rest, reserves := r.count (·.decodeError) }

end PacketWire.Codec
