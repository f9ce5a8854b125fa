import PacketWire.Basic

/-!
# Bit streams

Two orders of reading bits from bytes. `Rising` takes the low bits of a byte first and puts
the first bit read at the low end of a number. `Falling` takes the high bits first and puts
the first bit read at the high end. `BitSink` writes in the rising order.
-/

namespace PacketWire.Compression

structure Rising where
  /-- Bits taken from the input and not yet read. -/
  held : Nat := 0
  count : Nat := 0
  rest : Bytes

namespace Rising

def ofBytes (bs : Bytes) : Rising := { rest := bs }

/-- Holds at least `n` bits, or `none` when the input ends before. -/
def fill (n held count : Nat) : Bytes → Option Rising
  | [] => if n ≤ count then some { held, count, rest := [] } else none
  | b :: bs =>
    if n ≤ count then some { held, count, rest := b :: bs }
    else fill n (held + b.toNat <<< count) (count + 8) bs

/-- The next `n` bits as a number. -/
def take? (n : Nat) (r : Rising) : Option (Nat × Rising) :=
  match fill n r.held r.count r.rest with
  | none => none
  | some r =>
    some (r.held % (1 <<< n), { r with held := r.held >>> n, count := r.count - n })

/-- The next `n` bits as a number, which are not consumed. -/
def peek? (n : Nat) (r : Rising) : Option (Nat × Rising) :=
  match fill n r.held r.count r.rest with
  | none => none
  | some r => some (r.held % (1 <<< n), r)

def bit? (r : Rising) : Option (Bool × Rising) :=
  match take? 1 r with
  | none => none
  | some (n, r) => some (n == 1, r)

/-- Drops the bits up to the next byte boundary. -/
def align (r : Rising) : Rising :=
  let odd := r.count % 8
  { r with held := r.held >>> odd, count := r.count - odd }

def bytesLeft (r : Rising) : Bytes :=
  let r := r.align
  Bytes.lowBytes (r.count / 8) r.held ++ r.rest

def size (r : Rising) : Nat := r.count + 8 * r.rest.length

end Rising

structure Falling where
  held : Nat := 0
  count : Nat := 0
  rest : Bytes

namespace Falling

def fill (n held count : Nat) : Bytes → Option Falling
  | [] => if n ≤ count then some { held, count, rest := [] } else none
  | b :: bs =>
    if n ≤ count then some { held, count, rest := b :: bs }
    else fill n (held * 256 + b.toNat) (count + 8) bs

def take? (n : Nat) (r : Falling) : Option (Nat × Falling) :=
  match fill n r.held r.count r.rest with
  | none => none
  | some r =>
    let left := r.count - n
    some (r.held >>> left, { r with held := r.held % (1 <<< left), count := left })

def bit? (r : Falling) : Option (Bool × Falling) :=
  match take? 1 r with
  | none => none
  | some (n, r) => some (n == 1, r)

def size (r : Falling) : Nat := r.count + 8 * r.rest.length

/-- A stream that was written backwards: it starts at the last byte, below the highest bit set
there. -/
def ofBackward (bs : Bytes) : Option Falling :=
  match bs.reverse with
  | [] => none
  | b :: rest =>
    if b = 0 then none
    else
      let top := b.toNat.log2
      some { held := b.toNat % (1 <<< top), count := top, rest }

end Falling

structure BitSink where
  held : Nat := 0
  count : Nat := 0
  out : Array UInt8 := #[]

namespace BitSink

def flushBytes : Nat → BitSink → BitSink
  | 0, s => s
  | n + 1, s =>
    flushBytes n
      { held := s.held / 256, count := s.count - 8, out := s.out.push (UInt8.ofNat s.held) }

def put (s : BitSink) (n value : Nat) : BitSink :=
  let s := { s with held := s.held + (value % (1 <<< n)) <<< s.count, count := s.count + n }
  flushBytes (s.count / 8) s

def finish (s : BitSink) : Array UInt8 :=
  if s.count = 0 then s.out else s.out.push (UInt8.ofNat s.held)

end BitSink

end PacketWire.Compression
