import PacketWire.Compression.Inflater
import PacketWire.Compression.Checksum
import PacketWire.Compression.Zstd.Literals
import PacketWire.Compression.Zstd.Sequences

/-!
# Zstd frames

A zstd stream is a row of frames, some of which are to be skipped. A frame is a header, blocks
and possibly a checksum. `Zstd.inflate` fills a buffer of a given size with the text of all
frames; a stream that does not fit is as bad as a broken one. `Zstd.compress` writes one frame.
-/

namespace PacketWire.Compression.Zstd

open Lz77

structure Header where
  blockLimit : Nat
  contentSize : Option Nat
  checksum : Bool

def magic : Nat := 4247762216

/-- The window size that a descriptor byte gives, if it is allowed. -/
def windowSize (b : UInt8) : Option Nat :=
  let log := b.toNat / 8 + 10
  if 31 < log then none else some (1 <<< log + 1 <<< log / 8 * (b.toNat % 8))

/-- The first `n` bytes as a number, and the bytes after them. -/
def field (n : Nat) (bs : Bytes) : Option (Nat × Bytes) :=
  if bs.length < n then none else some (Bytes.ofLowBytes (bs.take n), bs.drop n)

/-- The header after the magic number. No dictionary is known. -/
def readHeader (bs : Bytes) : Option (Header × Bytes) := do
  let (descriptor, bs) ← field 1 bs
  let single := descriptor / 32 % 2 == 1
  if descriptor / 8 % 2 = 1 then none
  else
    let (window, bs) ← if single then some (0, bs)
      else match bs with
        | [] => none
        | b :: bs => (windowSize b).map (·, bs)
    let (dictionary, bs) ← field ([0, 1, 2, 4].getD (descriptor % 4) 0) bs
    let (size, bs) ← match descriptor / 64 with
      | 0 => if single then (field 1 bs).map fun (n, bs) => (some n, bs) else some (none, bs)
      | 1 => (field 2 bs).map fun (n, bs) => (some (n + 256), bs)
      | 2 => (field 4 bs).map fun (n, bs) => (some n, bs)
      | _ => (field 8 bs).map fun (n, bs) => (some n, bs)
    if dictionary ≠ 0 then none
    else
      let window := if single then size.getD 0 else window
      return ({ blockLimit := min window maxBlockSize, contentSize := size,
                checksum := descriptor / 4 % 2 == 1 }, bs)

/-- What a block leaves for the next ones of its frame. -/
structure Memory where
  code : Option PrefixCode := none
  tables : Option Tables := none
  recent : Recent := {}

abbrev Text := Array UInt8

/-- Appends the texts of sequences and then the literals left. -/
def execute (room : Nat) : List Sequence → Bytes → Text → Option Text
  | [], literals, out =>
    if room < out.size + literals.length then none else some (literals.foldl Array.push out)
  | q :: qs, literals, out =>
    let taken := literals.take q.literals
    if room < out.size + q.literals + q.length ∨ taken.length < q.literals then none
    else
      let out := taken.foldl Array.push out
      if out.size < q.distance then none
      else execute room qs (literals.drop q.literals) (copyBack q.distance q.length out)

def compressedBlock (h : Header) (room : Nat) (m : Memory) (bs : Bytes) (out : Text) :
    Option (Memory × Text) :=
  if h.blockLimit < bs.length then none
  else do
    let l ← readLiterals h.blockLimit m.code bs
    let s ← readSection m.tables m.recent l.rest
    let out ← execute room s.sequences l.literals out
    return ({ code := l.code, tables := s.tables, recent := s.recent }, out)

def block (h : Header) (kind size room : Nat) (m : Memory) (bs : Bytes) (out : Text) :
    Option (Memory × Text × Bytes) :=
  match kind with
  | 0 =>
    if bs.length < size ∨ room < out.size + size then none
    else some (m, (bs.take size).foldl Array.push out, bs.drop size)
  | 1 =>
    match bs with
    | [] => none
    | b :: rest =>
      if room < out.size + size then none else some (m, out ++ Array.replicate size b, rest)
  | 2 =>
    if bs.length < size then none
    else do
      let (m, out) ← compressedBlock h room m (bs.take size) out
      return (m, out, bs.drop size)
  | _ => none

/-- The blocks of a frame. Each takes three bytes, so the input bounds their number. -/
def blocks (h : Header) (room : Nat) : Nat → Memory → Bytes → Text → Option (Text × Bytes)
  | 0, _, _, _ => none
  | fuel + 1, m, bs, out => do
    let (header, bs) ← field 3 bs
    let (m, out, bs) ← block h (header / 2 % 4) (header / 8) room m bs out
    if header % 2 = 1 then return (out, bs) else blocks h room fuel m bs out

/-- The text of the frame whose header follows, and the bytes after the frame. -/
def frame (room : Nat) (bs : Bytes) : Option (Bytes × Bytes) := do
  let (h, bs) ← readHeader bs
  let (out, bs) ← blocks h room (bs.length + 1) {} bs #[]
  let text := out.toList
  if h.contentSize.any (· ≠ out.size) then none
  else if h.checksum then
    let (sum, bs) ← field 4 bs
    if sum = (xxHash64 text).toNat % 4294967296 then some (text, bs) else none
  else some (text, bs)

/-- The texts of all frames, latest first. Each frame takes a byte. -/
def frames : Nat → Nat → Bytes → List Bytes → Option (List Bytes)
  | _, _, [], acc => some acc
  | 0, _, _, _ => none
  | fuel + 1, room, bs, acc =>
    if bs.length < 5 then none
    else do
      let (word, rest) ← field 4 bs
      if word / 16 = 25481893 then
        let (n, rest) ← field 4 rest
        if rest.length < n then none else frames fuel room (rest.drop n) acc
      else if word = magic then
        let (text, rest) ← frame room rest
        frames fuel (room - text.length) rest (text :: acc)
      else none

def inflate (bs : Bytes) (room : Nat) : Inflation :=
  match frames bs.length room bs [] with
  | some texts => .done texts.reverse.flatten
  | none => .corrupt []

/-- The sequences of tokens, latest first, and their literals. -/
def sequencesOf : List Token → Nat → Array UInt8 → List Sequence → List Sequence × Bytes
  | [], _, literals, acc => (acc, literals.toList)
  | .literal b :: ts, n, literals, acc => sequencesOf ts (n + 1) (literals.push b) acc
  | .copy length distance :: ts, n, literals, acc =>
    sequencesOf ts 0 literals ({ literals := n, length, distance } :: acc)

def literalsBytes (bs : Bytes) : Bytes :=
  let n := bs.length
  (if n < 32 then [UInt8.ofNat (n * 8)]
   else if n < 4096 then Bytes.lowBytes 2 (n * 16 + 4)
   else Bytes.lowBytes 3 (n * 16 + 12)) ++ bs

def limits : Limits := { minLength := 4, maxLength := 131072, maxDistance := 131072 }

def blockHeader (last : Bool) (kind size : Nat) : Bytes :=
  Bytes.lowBytes 3 ((if last then 1 else 0) + 2 * kind + 8 * size)

/-- A block of `bs`: one byte repeated, sequences, or the bytes as they are. -/
def blockBytes (last : Bool) (bs : Bytes) : Bytes :=
  match bs with
  | [] => blockHeader last 0 0
  | b :: rest =>
    if rest.all (· == b) then blockHeader last 1 bs.length ++ [b]
    else
      let (qs, literals) := sequencesOf (parse limits bs) 0 #[] []
      let packed := literalsBytes literals ++ sectionBytes qs
      if packed.length < bs.length then blockHeader last 2 packed.length ++ packed
      else blockHeader last 0 bs.length ++ bs

def blocksFrom : Nat → Bytes → List Bytes → List Bytes
  | 0, bs, acc => blockBytes true (bs.take maxBlockSize) :: acc
  | n + 1, bs, acc =>
    if bs.length ≤ maxBlockSize then blockBytes true bs :: acc
    else blocksFrom n (bs.drop maxBlockSize) (blockBytes false (bs.take maxBlockSize) :: acc)

def headerBytes (n : Nat) : Bytes :=
  Bytes.lowBytes 4 magic ++
    (if n < 256 then [32, UInt8.ofNat n]
     else if n < 65792 then 96 :: Bytes.lowBytes 2 (n - 256)
     else 160 :: Bytes.lowBytes 4 n)

def compress (bs : Bytes) : Bytes :=
  headerBytes bs.length ++ (blocksFrom (bs.length / maxBlockSize) bs []).reverse.flatten

end PacketWire.Compression.Zstd
