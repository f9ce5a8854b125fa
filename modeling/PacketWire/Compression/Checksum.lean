import PacketWire.Basic

/-!
# Checksums

`adler32` closes a zlib stream and `xxHash64` a zstd frame.
-/

namespace PacketWire.Compression

/-- Two running sums modulo the largest prime below 2^16, the second in the high half. -/
def adler32 (bs : Bytes) : Nat :=
  let (a, b) := bs.foldl
    (fun (s : Nat × Nat) x =>
      let a := (s.1 + x.toNat) % 65521
      (a, (s.2 + a) % 65521)) (1, 0)
  b * 65536 + a

namespace XxHash

def prime1 : UInt64 := 11400714785074694791
def prime2 : UInt64 := 14029467366897019727
def prime3 : UInt64 := 1609587929392839161
def prime4 : UInt64 := 9650029242287828579
def prime5 : UInt64 := 2870177450012600261

def rotl (x : UInt64) (n : UInt64) : UInt64 := (x <<< n) ||| (x >>> (64 - n))

def round (acc lane : UInt64) : UInt64 := rotl (acc + lane * prime2) 31 * prime1

def mergeLane (h lane : UInt64) : UInt64 := (h ^^^ round 0 lane) * prime1 + prime4

structure Lanes where
  v1 : UInt64
  v2 : UInt64
  v3 : UInt64
  v4 : UInt64

def Lanes.start : Lanes :=
  { v1 := prime1 + prime2, v2 := prime2, v3 := 0, v4 := 0 - prime1 }

def word (bs : Bytes) : UInt64 := UInt64.ofNat (Bytes.ofLowBytes bs)

def stripes : Nat → Lanes → Bytes → Lanes × Bytes
  | 0, v, bs => (v, bs)
  | n + 1, v, bs =>
    stripes n
      { v1 := round v.v1 (word (bs.take 8)),
        v2 := round v.v2 (word ((bs.drop 8).take 8)),
        v3 := round v.v3 (word ((bs.drop 16).take 8)),
        v4 := round v.v4 (word ((bs.drop 24).take 8)) }
      (bs.drop 32)

/-- Mixes the bytes after the last stripe: words of eight, one of four, then single bytes. -/
def tail (h : UInt64) : Bytes → UInt64
  | a :: b :: c :: d :: e :: f :: g :: i :: rest =>
    tail (rotl (h ^^^ round 0 (word [a, b, c, d, e, f, g, i])) 27 * prime1 + prime4) rest
  | a :: b :: c :: d :: rest =>
    tail (rotl (h ^^^ (word [a, b, c, d] * prime1)) 23 * prime2 + prime3) rest
  | a :: rest => tail (rotl (h ^^^ (a.toUInt64 * prime5)) 11 * prime1) rest
  | [] => h

def avalanche (h : UInt64) : UInt64 :=
  let h := (h ^^^ (h >>> 33)) * prime2
  let h := (h ^^^ (h >>> 29)) * prime3
  h ^^^ (h >>> 32)

end XxHash

open XxHash in
def xxHash64 (bs : Bytes) : UInt64 :=
  let n := bs.length
  let (h, rest) :=
    if n < 32 then (prime5, bs)
    else
      let (v, rest) := stripes (n / 32) Lanes.start bs
      let h := rotl v.v1 1 + rotl v.v2 7 + rotl v.v3 12 + rotl v.v4 18
      (mergeLane (mergeLane (mergeLane (mergeLane h v.v1) v.v2) v.v3) v.v4, rest)
  avalanche (tail (h + UInt64.ofNat n) rest)

end PacketWire.Compression
