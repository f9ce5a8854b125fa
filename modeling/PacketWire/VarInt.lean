import PacketWire.Basic

/-!
# Variable-length integers

Seven-bit groups, least significant group first, every byte but the last with its high bit
set. `groups` writes a natural number, `scan` reads one from at most a given number of bytes.
A signed number is written through its two's-complement bit pattern: `encode32` and
`decode32?` for the width of lengths, ids and sizes, `encode64` and `decode64?` for long ones.
-/

namespace PacketWire.VarInt

/-- The groups of `n`. -/
def groups (n : Nat) : Bytes :=
  if n < 128 then [UInt8.ofNat n] else UInt8.ofNat (n % 128 + 128) :: groups (n / 128)
termination_by n
decreasing_by omega

/-- How many groups `n` takes: one for each begun seven bits, at least one. -/
def groupCount (n : Nat) : Nat :=
  let bits := if n = 0 then 0 else n.log2 + 1
  (max bits 1 + 6) / 7

def encode32 (v : Int32) : Bytes := groups v.toUInt32.toNat

def encode64 (v : Int64) : Bytes := groups v.toUInt64.toNat

def length32 (v : Int32) : Nat := groupCount v.toUInt32.toNat

def length64 (v : Int64) : Nat := groupCount v.toUInt64.toNat

/-- What the start of a byte string says about a number. -/
inductive Scan (α : Type) where
  /-- A complete number, and how many bytes it took. -/
  | found (value : α) (length : Nat)
  /-- The bytes end before the last group. -/
  | needMore
  /-- More groups than the width allows. -/
  | invalid
  deriving DecidableEq, Repr

def Scan.map {α β : Type} (f : α → β) : Scan α → Scan β
  | .found v n => .found (f v) n
  | .needMore => .needMore
  | .invalid => .invalid

/-- Reads a number of at most `limit` groups. -/
def scan : Nat → Bytes → Scan Nat
  | 0, _ => .invalid
  | _ + 1, [] => .needMore
  | limit + 1, b :: bs =>
    if b.toNat < 128 then .found b.toNat 1
    else
      match scan limit bs with
      | .found high n => .found (b.toNat - 128 + 128 * high) (n + 1)
      | .needMore => .needMore
      | .invalid => .invalid

def maxLength32 : Nat := 5

/-- The largest number that a 32-bit one can be. -/
def maxValue : Nat := 2147483647

def maxLength64 : Nat := 10

def scan32 (bs : Bytes) : Scan Int32 := (scan maxLength32 bs).map Int32.ofNat

def scan64 (bs : Bytes) : Scan Int64 := (scan maxLength64 bs).map Int64.ofNat

/-- The verdict on a number that has to be complete: bytes that end inside it are an end of
stream. -/
def Scan.complete {α : Type} : Scan α → Except WireError (α × Nat)
  | .found v n => .ok (v, n)
  | .needMore => .error .unexpectedEndOfStream
  | .invalid => .error .malformedVarInt

def decode32? (bs : Bytes) : Except WireError (Int32 × Nat) := (scan32 bs).complete

def decode64? (bs : Bytes) : Except WireError (Int64 × Nat) := (scan64 bs).complete

end PacketWire.VarInt
