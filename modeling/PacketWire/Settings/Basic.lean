import PacketWire.Codec.Basic
import PacketWire.Pool
import PacketWire.Log.Level
import PacketWire.Endpoint.Pipe

/-!
# Settings

What can be configured, in four sections, with the values that apply by default.
-/

namespace PacketWire

namespace Settings

def defaultCapacity : Nat := 65536

def defaultChunk : Nat := 8192

structure CodecSection where
  threshold : Int32 := compressionOff
  kind : Compression.Kind := .zlib
  level : Nat := 6
  maxFrame : Nat := Frame.defaultMaxLength
  maxUncompressed : Nat := defaultMaxUncompressed
  deriving DecidableEq, Repr, Inhabited

structure PipeSection where
  chunk : Nat := defaultChunk
  /-- Packets that wait to be sent; `none` is no limit. -/
  sendQueue : Option Nat := some 1024
  inbound : Capacity := .bounded defaultCapacity
  outbound : Capacity := .bounded defaultCapacity
  deriving DecidableEq, Repr, Inhabited

structure PoolSection where
  preallocated : Nat := 50
  maxPooledSize : Nat := Pool.defaultMaxPooledSize
  /-- Most buffers out at once; `0` is no limit. -/
  maxOutstanding : Nat := 0
  deriving DecidableEq, Repr, Inhabited

structure LogSection where
  appName : String := "gamewire"
  level : Log.Level := .info
  toConsole : Bool := true
  file : Option String := none
  json : Bool := false
  deriving DecidableEq, Repr, Inhabited

end Settings

structure Settings where
  codec : Settings.CodecSection := {}
  pipe : Settings.PipeSection := {}
  pool : Settings.PoolSection := {}
  logging : Settings.LogSection := {}
  deriving DecidableEq, Repr, Inhabited

namespace Settings

def CodecSection.build (formats : Compression.Formats) (s : CodecSection) : Codec :=
  { threshold := s.threshold, compressor := formats s.kind s.level, maxFrame := s.maxFrame,
    maxUncompressed := s.maxUncompressed }

def PoolSection.build (s : PoolSection) : Pool :=
  Pool.withLimits s.preallocated s.maxPooledSize s.maxOutstanding

end Settings

end PacketWire
