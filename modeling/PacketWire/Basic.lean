/-!
# Byte strings and errors

A byte string is a list of bytes, first byte first. `lowBytes` and `ofLowBytes` are the
little-endian fixed-width numbers that checksums and block headers use.

Errors are every way a read or write can end, as a cause. The wording of each cause is in
`message`, and `WireError.isFatal` tells which of them tear a connection down.
-/

namespace PacketWire

abbrev Bytes := List UInt8

namespace Bytes

def zeros (n : Nat) : Bytes := List.replicate n 0

@[simp] theorem length_zeros (n : Nat) : (zeros n).length = n := by simp [zeros]

/-- The `width` low bytes of `n`, least significant first. -/
def lowBytes : Nat → Nat → Bytes
  | 0, _ => []
  | width + 1, n => UInt8.ofNat n :: lowBytes width (n / 256)

/-- The number whose bytes are `bs`, least significant first. -/
def ofLowBytes : Bytes → Nat
  | [] => 0
  | b :: bs => b.toNat + 256 * ofLowBytes bs

def ofHighBytes (bs : Bytes) : Nat :=
  bs.foldl (fun n b => n * 256 + b.toNat) 0

end Bytes

/-- The kinds of failures that framing tells apart, and any other one by its name. -/
inductive IoKind where
  /-- The transport was disturbed and may be asked again. -/
  | interrupted
  | unexpectedEof
  | brokenPipe
  | writeZero
  | invalidData
  | other (name : String)
  deriving DecidableEq, Repr, Inhabited

/-- The text of a failure that carries nothing but its kind. -/
def IoKind.message : IoKind → String
  | .interrupted => "operation interrupted"
  | .unexpectedEof => "unexpected end of file"
  | .brokenPipe => "broken pipe"
  | .writeZero => "write zero"
  | .invalidData => "invalid data"
  | .other name => name

def IoKind.name : IoKind → String
  | .interrupted => "Interrupted"
  | .unexpectedEof => "UnexpectedEof"
  | .brokenPipe => "BrokenPipe"
  | .writeZero => "WriteZero"
  | .invalidData => "InvalidData"
  | .other name => name

def IoKind.ofName (name : String) : IoKind :=
  ([.interrupted, .unexpectedEof, .brokenPipe, .writeZero, .invalidData].find?
    (IoKind.name · == name)).getD (.other name)

structure IoError where
  kind : IoKind
  text : String
  deriving DecidableEq, Repr, Inhabited

def IoError.ofKind (kind : IoKind) : IoError := { kind, text := kind.message }

/-- Why a frame or a compressed body was refused. -/
inductive Fault where
  | zeroLength
  | negativeLength
  | missingId
  | truncatedSize
  | belowThreshold
  | sizeMismatch
  | status
  | negativeSize
  deriving DecidableEq, Repr, Inhabited

def Fault.message : Fault → String
  | .zeroLength => "Frame length must be at least 1 (packet id)"
  | .negativeLength => "Negative length prefix"
  | .missingId => "Frame body does not contain a packet id"
  | .truncatedSize => "Frame body ends inside the uncompressed size prefix"
  | .belowThreshold => "Compressed frame declares a size below the threshold"
  | .sizeMismatch => "Decompressed size differs from declared size"
  | .status => "Decompressor reported failure"
  | .negativeSize => "Negative uncompressed size"

inductive WireError where
  | io (cause : IoError)
  | malformedVarInt
  | unexpectedEndOfStream
  | invalidFrame (fault : Fault)
  | oversizedPacket (size : Nat)
  | compressionFailure
  | decompression (fault : Fault)
  | poolExhausted (outstanding : Nat)
  | connectionClosed
  | cancelled
  | config (text : String)
  | unknownPacket (id : Int32) (version : Int32)
  deriving DecidableEq, Repr, Inhabited

/-- A packet id as upper-case hexadecimal of its 32-bit pattern, at least two digits. -/
def hexId (id : Int32) : String :=
  let digits := (Nat.toDigits 16 id.toUInt32.toNat).map Char.toUpper
  String.ofList (List.replicate (2 - digits.length) '0' ++ digits)

namespace WireError

def name : WireError → String
  | .io _ => "Io"
  | .malformedVarInt => "MalformedVarInt"
  | .unexpectedEndOfStream => "UnexpectedEndOfStream"
  | .invalidFrame _ => "InvalidFrame"
  | .oversizedPacket _ => "OversizedPacket"
  | .compressionFailure => "CompressionFailure"
  | .decompression _ => "DecompressionError"
  | .poolExhausted _ => "PoolExhausted"
  | .connectionClosed => "ConnectionClosed"
  | .cancelled => "Cancelled"
  | .config _ => "ConfigError"
  | .unknownPacket .. => "UnknownPacket"

def message : WireError → String
  | .io cause => "I/O error: " ++ cause.text
  | .malformedVarInt => "Malformed VarInt: too many continuation bytes"
  | .unexpectedEndOfStream => "Unexpected end of stream"
  | .invalidFrame fault => "Invalid frame: " ++ fault.message
  | .oversizedPacket size => "Packet too large: " ++ toString size ++ " bytes"
  | .compressionFailure => "Compression failed"
  | .decompression fault => "Decompression failed: " ++ fault.message
  | .poolExhausted n => "Buffer pool exhausted: " ++ toString n ++ " buffers outstanding"
  | .connectionClosed => "Connection closed"
  | .cancelled => "Operation cancelled"
  | .config text => "Configuration error: " ++ text
  | .unknownPacket id version =>
    "No decoder for packet 0x" ++ hexId id ++ " at protocol " ++ toString version.toInt

/-- Whether the error ends the connection. Configuration errors and unknown packet ids sit
above the framing and leave it running. -/
def isFatal : WireError → Bool
  | .config _ | .unknownPacket .. => false
  | _ => true

/-- The transport failure that reports this error to a caller who only knows transports. -/
def toIoError : WireError → IoError
  | .io cause => cause
  | .unexpectedEndOfStream =>
    { kind := .unexpectedEof, text := message .unexpectedEndOfStream }
  | e => { kind := .invalidData, text := e.message }

end WireError

end PacketWire
