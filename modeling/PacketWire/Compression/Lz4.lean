import PacketWire.Compression.Inflater
import PacketWire.Compression.Lz77

/-!
# Lz4 blocks

A raw lz4 block is a row of sequences, each of literals and then a copy; the last one has
literals only. `Lz4.inflate` fills a buffer and never writes beyond it.
-/

namespace PacketWire.Compression.Lz4

open Lz77

/-- Adds the bytes of a long length: each of 255 is followed by another. -/
def longLength (n : Nat) : Bytes → Option (Nat × Bytes)
  | [] => none
  | b :: bs => if b = 255 then longLength (n + 255) bs else some (n + b.toNat, bs)

/-- A length whose low part stands in the token. -/
def fullLength (low : Nat) (bs : Bytes) : Option (Nat × Bytes) :=
  if low = 15 then longLength 15 bs else some (low, bs)

/-- How a block ended. -/
inductive Outcome where
  | done (out : Array UInt8)
  | outputFull (out : Array UInt8)
  | corrupt

/-- What follows the literals of a sequence: a distance and the rest of the length. -/
def copyPart (low : Nat) : Bytes → Option ((Nat × Nat) × Bytes)
  | a :: b :: bs =>
    let distance := a.toNat + 256 * b.toNat
    if distance = 0 then none
    else
      match fullLength low bs with
      | none => none
      | some (n, bs) => some ((n + 4, distance), bs)
  | _ => none

/-- Reads sequences. Each takes a byte, so the input bounds their number. -/
def sequences (room : Nat) : Nat → Bytes → Array UInt8 → Outcome
  | 0, _, _ => .corrupt
  | _ + 1, [], _ => .corrupt
  | fuel + 1, token :: bs, out =>
    match fullLength (token.toNat / 16) bs with
    | none => .corrupt
    | some (literals, bs) =>
      let taken := bs.take literals
      if taken.length < literals then .corrupt
      else if room < out.size + literals then .outputFull out
      else
        let out := taken.foldl Array.push out
        match bs.drop literals with
        | [] => .done out
        | bs =>
          match copyPart (token.toNat % 16) bs with
          | none => .corrupt
          | some ((n, distance), bs) =>
            if room < out.size + n then .outputFull out
            else if out.size < distance then .corrupt
            else sequences room fuel bs (copyBack distance n out)

/-- Inflates into a buffer of `room` bytes. A full buffer counts as written to its end. -/
def inflate (bs : Bytes) (room : Nat) : Inflation :=
  match sequences room (bs.length + 1) bs #[] with
  | .done out => .done out.toList
  | .outputFull out => .outputFull (out.toList ++ Bytes.zeros (room - out.size))
  | .corrupt => .corrupt []

def putLong : Nat → Nat → List UInt8
  | 0, _ => []
  | fuel + 1, n => if n < 255 then [UInt8.ofNat n] else 255 :: putLong fuel (n - 255)

def lengthBytes (n : Nat) : Bytes := if n < 15 then [] else putLong (n / 255 + 1) (n - 15)

def sequenceBytes (literals : Bytes) (copy : Option (Nat × Nat)) : Bytes :=
  let n := literals.length
  let low := match copy with
    | none => 0
    | some (length, _) => min 15 (length - 4)
  UInt8.ofNat (min 15 n * 16 + low) :: lengthBytes n ++ literals ++
    match copy with
    | none => []
    | some (length, distance) => Bytes.lowBytes 2 distance ++ lengthBytes (length - 4)

/-- The sequences of tokens, latest first, with the literals collected so far. -/
def sequencesOf : List Token → Array UInt8 → List Bytes → List Bytes
  | [], literals, acc => sequenceBytes literals.toList none :: acc
  | .literal b :: ts, literals, acc => sequencesOf ts (literals.push b) acc
  | .copy n distance :: ts, literals, acc =>
    sequencesOf ts #[] (sequenceBytes literals.toList (some (n, distance)) :: acc)

def limits : Limits :=
  { minLength := 4, maxLength := 16777216, maxDistance := 65535, literalTail := 12 }

def compress (bs : Bytes) : Bytes := (sequencesOf (parse limits bs) #[] []).reverse.flatten

end PacketWire.Compression.Lz4
