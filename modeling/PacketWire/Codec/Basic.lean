import PacketWire.Frame
import PacketWire.Compression.Zlib
import PacketWire.Compression.Lz4
import PacketWire.Compression.Zstd.Frame

/-!
# Codecs

A `Codec` holds what turns packets into frames and back: the compression threshold in force,
a `Compressor` and two size limits. A negative threshold leaves frame bodies as they are. Under
any other one a body starts with a size: zero before a body that is shorter than the
threshold, and else the size of the body that follows compressed.

`Codec.layout` reads the start of a frame body under the threshold.
-/

namespace PacketWire.Compression

structure Compressor where
  /-- The packed text, unless the format fails on it. -/
  compress : Bytes → Option Bytes
  /-- What inflating into a buffer of the given size gives. -/
  inflate : Bytes → Nat → Inflation

/-- A compressor for every format and level. -/
abbrev Formats := Kind → Nat → Compressor

/-- The formats as they are written here; a level outside the range counts as the nearest in it. -/
def Kind.compressor : Formats
  | .zlib, level => { compress := fun bs => some (Zlib.compress (min level 9) bs),
                      inflate := Zlib.inflate }
  | .lz4, _ => { compress := fun bs => some (Lz4.compress bs), inflate := Lz4.inflate }
  | .zstd, _ => { compress := fun bs => some (Zstd.compress bs), inflate := Zstd.inflate }

end PacketWire.Compression

namespace PacketWire

open Compression

def defaultMaxUncompressed : Nat := 8388608

/-- The threshold that turns compression off. -/
def compressionOff : Int32 := -1

structure Codec where
  threshold : Int32 := compressionOff
  compressor : Compressor := Kind.zlib.compressor 6
  maxFrame : Nat := Frame.defaultMaxLength
  maxUncompressed : Nat := defaultMaxUncompressed

namespace Codec

def isEnabled (c : Codec) : Bool := 0 ≤ c.threshold

def switch (c : Codec) (threshold : Int32) : Codec := { c with threshold }

/-- Where the packet is in a frame body. -/
inductive Layout where
  | raw (start : Nat)
  | packed (start size : Nat)
  deriving DecidableEq, Repr

/-- Reads the size at the start of a body. -/
def layout (c : Codec) (body : Bytes) : Except WireError Layout :=
  if c.threshold < 0 then .ok (.raw 0)
  else
    match VarInt.scan32 body with
    | .needMore => .error (.invalidFrame .truncatedSize)
    | .invalid => .error .malformedVarInt
    | .found size used =>
      if size < 0 then .error (.decompression .negativeSize)
      else if size = 0 then .ok (.raw used)
      else if size < c.threshold then .error (.invalidFrame .belowThreshold)
      else
        let n := size.toInt.toNat
        if c.maxUncompressed < n then .error (.oversizedPacket n) else .ok (.packed used n)

end Codec

end PacketWire
