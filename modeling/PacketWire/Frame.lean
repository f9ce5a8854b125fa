import PacketWire.VarInt

/-!
# Frames

A frame on the wire is a length and that many bytes of body. `Frame.take` splits the first
frame off a byte string: it consumes a whole frame or nothing. `Frame.encode` writes one.
-/

namespace PacketWire.Frame

/-- The longest frame that a length of three bytes can announce. -/
def defaultMaxLength : Nat := 2097151

def encode (body : Bytes) : Bytes := VarInt.encode32 (Int32.ofNat body.length) ++ body

/-- Which announced lengths are frames: at least the one byte of an id, at most `max`. -/
def checkLength (max : Nat) (length : Int32) : Except WireError Nat :=
  if length < 0 then .error (.invalidFrame .negativeLength)
  else if length = 0 then .error (.invalidFrame .zeroLength)
  else
    let n := length.toInt.toNat
    if max < n then .error (.oversizedPacket n) else .ok n

/-- The body of the first frame of `bs` and the bytes after it, or `none` while the frame is
incomplete. -/
def take (max : Nat) (bs : Bytes) : Except WireError (Option (Bytes × Bytes)) :=
  match VarInt.scan32 bs with
  | .needMore => .ok none
  | .invalid => .error .malformedVarInt
  | .found length used =>
    match checkLength max length with
    | .error e => .error e
    | .ok n =>
      let rest := bs.drop used
      let body := rest.take n
      if body.length < n then .ok none else .ok (some (body, rest.drop n))

/-- How many bytes the first frame of `bs` still lacks, once its length is known. -/
def missing (bs : Bytes) : Nat :=
  match VarInt.scan32 bs with
  | .found length used => used + length.toInt.toNat - bs.length
  | _ => 0

/-- The bodies of at most `most` frames at the start of `bs`, how the row ended, and the bytes
left. -/
def takeAll (max : Nat) : Nat → Bytes → (List Bytes × Option WireError) × Bytes
  | 0, bs => (([], none), bs)
  | most + 1, bs =>
    match take max bs with
    | .ok none => (([], none), bs)
    | .error e => (([], some e), bs)
    | .ok (some (body, rest)) =>
      let ((bodies, fault), left) := takeAll max most rest
      ((body :: bodies, fault), left)

end PacketWire.Frame
