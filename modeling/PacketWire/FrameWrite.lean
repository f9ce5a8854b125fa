import PacketWire.Endpoint.Writing
import PacketWire.Codec.Encode

/-!
# Writing one frame

A `FrameSender` encodes every frame into the same buffer, as a whole before its first byte goes
out, and a `FrameWrite` is that frame on its way. An error of the encoder leaves the sink alone.
`Closing` passes on what the sink has taken and ends the stream.
-/

namespace PacketWire

variable {κ : Type} [Sink κ]

/-- The bytes of a frame that the sink has not taken. -/
structure FrameWrite where
  rest : Bytes
  deriving DecidableEq, Repr

/-- A writer that writes frame by frame, out of one buffer. -/
structure FrameSender (κ : Type) where
  codec : Codec
  sink : κ
  reserves : Reserves
  scratch : Bytes := []

namespace FrameSender

omit [Sink κ]

def clear (s : FrameSender κ) : FrameSender κ := { s with scratch := [] }

/-- Encodes an item behind what is in the buffer. -/
def encode (x : Codec.Item) (s : FrameSender κ) : Except WireError Unit × FrameSender κ :=
  let e := s.codec.putItem s.scratch s.reserves x
  (e.result.map fun _ => (), { s with scratch := e.out, reserves := e.reserves })

/-- Clears the buffer and starts to write the frame of an item from it. -/
def start (x : Codec.Item) (s : FrameSender κ) : Except WireError FrameWrite × FrameSender κ :=
  match s.clear.encode x with
  | (.ok (), s) => (.ok { rest := s.scratch }, s)
  | (.error e, s) => (.error e, s)

end FrameSender

namespace FrameWrite

def poll (w : FrameWrite) (k : κ) : Progress FrameWrite (Except WireError Unit) × κ :=
  match writeAll w.rest k with
  | (.waiting rest, k) => (.waiting { rest }, k)
  | (.done (.error e), k) => (.done (.error (.io e)), k)
  | (.done (.ok ()), k) => (.done (.ok ()), k)

end FrameWrite

def flushSink (k : κ) : Progress Unit (Except WireError Unit) × κ :=
  match Sink.flush k with
  | (.pending, k) => (.waiting (), k)
  | (.ready (.error e), k) => (.done (.error (.io e)), k)
  | (.ready (.ok ()), k) => (.done (.ok ()), k)

/-- A flush followed by a shutdown. -/
inductive Closing where
  | flushing
  | shuttingDown
  deriving DecidableEq, Repr

namespace Closing

def shutDown (k : κ) : Progress Closing (Except WireError Unit) × κ :=
  match Sink.shutdown k with
  | (.pending, k) => (.waiting .shuttingDown, k)
  | (.ready (.error e), k) => (.done (.error (.io e)), k)
  | (.ready (.ok ()), k) => (.done (.ok ()), k)

def poll (c : Closing) (k : κ) : Progress Closing (Except WireError Unit) × κ :=
  match c with
  | .shuttingDown => shutDown k
  | .flushing =>
    match flushSink k with
    | (.waiting (), k) => (.waiting .flushing, k)
    | (.done (.error e), k) => (.done (.error e), k)
    | (.done (.ok ()), k) => shutDown k

end Closing

end PacketWire
