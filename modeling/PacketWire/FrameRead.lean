import PacketWire.VarInt.Reading
import PacketWire.Codec.Decode

/-!
# Reading one frame

A `FrameRead` takes exactly one frame from a source: its length byte by byte, and then its body
into a pooled buffer of that size. It suits exchanges of one packet at a time. A read that is
given up returns its buffer; the bytes it has taken are gone.
-/

namespace PacketWire

open VarInt

inductive FrameRead where
  | length (number : NumberRead)
  /-- Filling a buffer; `got` is what there is of the body. -/
  | body (buffer : Buffer) (got : Bytes)
  deriving DecidableEq, Repr

namespace FrameRead

variable {σ : Type} [Source σ]

def start : FrameRead := .length {}

def abandon (f : FrameRead) (r : Reserves) : Reserves :=
  match f with
  | .length _ => r
  | .body buffer _ => r.release buffer

/-- Ends the read with an error. All errors are counted but for the clean end of the source. -/
def fail (e : WireError) (s : σ) (r : Reserves) :
    Progress FrameRead (Except WireError Packet) × σ × Reserves :=
  (.done (.error e), s, if e = .connectionClosed then r else r.count (·.decodeError))

/-- What a source that fails inside a body means. -/
def bodyError (e : IoError) : WireError :=
  if e.kind = .unexpectedEof then .unexpectedEndOfStream else .io e

/-- Reads on to the end of the body and decodes it. -/
def pollBody (c : Codec) (buffer : Buffer) (got : Bytes) (s : σ) (r : Reserves) :
    Progress FrameRead (Except WireError Packet) × σ × Reserves :=
  match readExact buffer.length got s with
  | (.waiting got, s) => (.waiting (.body buffer got), s, r)
  | (.done (.error e), s) => fail (bodyError e) s (r.release buffer)
  | (.done (.ok bytes), s) =>
    match c.decodePooled (buffer.overwrite 0 bytes) r with
    | (.ok p, r) => (.done (.ok p), s, r)
    | (.error e, r) => fail e s r

/-- Takes a buffer for a body of the announced length, and reads it. -/
def pollSized (c : Codec) (announced : Int32) (s : σ) (r : Reserves) :
    Progress FrameRead (Except WireError Packet) × σ × Reserves :=
  match Frame.checkLength c.maxFrame announced with
  | .error e => fail e s r
  | .ok n =>
    match r.acquire n with
    | (.error e, r) => fail e s r
    | (.ok buffer, r) => pollBody c buffer [] s r

def poll (c : Codec) (f : FrameRead) (s : σ) (r : Reserves) :
    Progress FrameRead (Except WireError Packet) × σ × Reserves :=
  match f with
  | .body buffer got => pollBody c buffer got s r
  | .length number =>
    match number.poll s with
    | (.waiting number, s) => (.waiting (.length number), s, r)
    | (.done (.error e), s) => fail e s r
    | (.done (.ok none), s) => fail .connectionClosed s r
    | (.done (.ok (some n)), s) => pollSized c n s r

end FrameRead

end PacketWire
