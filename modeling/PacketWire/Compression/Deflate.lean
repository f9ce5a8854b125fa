import PacketWire.Compression.Bits
import PacketWire.Compression.PrefixCode
import PacketWire.Compression.Lz77

/-!
# Deflate

A deflate stream is a row of blocks of literals and copies. `Deflate.parse` reads the tokens
of a stream and says how it ended. `Deflate.encode` writes tokens with the fixed code,
`Deflate.store` writes bytes without compression, and `Deflate.compress` chooses.
-/

namespace PacketWire.Compression.Deflate

open Lz77

/-- Base value and number of extra bits of each length symbol, from 257 on. -/
def lengthCodes : Array (Nat × Nat) :=
  #[(3, 0), (4, 0), (5, 0), (6, 0), (7, 0), (8, 0), (9, 0), (10, 0), (11, 1), (13, 1), (15, 1),
    (17, 1), (19, 2), (23, 2), (27, 2), (31, 2), (35, 3), (43, 3), (51, 3), (59, 3), (67, 4),
    (83, 4), (99, 4), (115, 4), (131, 5), (163, 5), (195, 5), (227, 5), (258, 0)]

def distanceCodes : Array (Nat × Nat) :=
  #[(1, 0), (2, 0), (3, 0), (4, 0), (5, 1), (7, 1), (9, 2), (13, 2), (17, 3), (25, 3), (33, 4),
    (49, 4), (65, 5), (97, 5), (129, 6), (193, 6), (257, 7), (385, 7), (513, 8), (769, 8),
    (1025, 9), (1537, 9), (2049, 10), (3073, 10), (4097, 11), (6145, 11), (8193, 12),
    (12289, 12), (16385, 13), (24577, 13)]

/-- The order in which the lengths of the code-length code are written. -/
def codeLengthOrder : List Nat :=
  [16, 17, 18, 0, 8, 7, 9, 6, 10, 5, 11, 4, 12, 3, 13, 2, 14, 1, 15]

def fixedLengths : List Nat :=
  List.replicate 144 8 ++ List.replicate 112 9 ++ List.replicate 24 7 ++ List.replicate 8 8

def fixedLiterals : PrefixCode := .ofLengths fixedLengths

def fixedDistances : PrefixCode := .ofLengths (List.replicate 32 5)

/-! ## Reading -/

/-- Why reading stopped before the end of a stream. -/
inductive Stop where
  | corrupt
  | truncated
  deriving DecidableEq, Repr

/-- A step of reading: the tokens so far, latest first, and the input left or why it stopped. -/
structure Progress where
  tokens : List Token
  state : Except Stop Rising

def Progress.stop (tokens : List Token) (why : Stop) : Progress :=
  { tokens, state := .error why }

def Progress.goOn (tokens : List Token) (r : Rising) : Progress := { tokens, state := .ok r }

def number (n : Nat) (r : Rising) : Except Stop (Nat × Rising) :=
  match r.take? n with
  | some x => .ok x
  | none => .error .truncated

def symbol (code : PrefixCode) (r : Rising) : Except Stop (Nat × Rising) :=
  match code.read Rising.bit? r with
  | .symbol s r => .ok (s, r)
  | .noSuchCode => .error .corrupt
  | .inputEnds => .error .truncated

/-- The value that entry `i` of a table and its extra bits give. -/
def extended (table : Array (Nat × Nat)) (i : Nat) (r : Rising) : Except Stop (Nat × Rising) :=
  match table[i]? with
  | none => .error .corrupt
  | some (base, bits) => do
    let (n, r) ← number bits r
    return (base + n, r)

def copyToken (distances : PrefixCode) (lengthSymbol : Nat) (r : Rising) :
    Except Stop (Token × Rising) := do
  let (length, r) ← extended lengthCodes (lengthSymbol - 257) r
  let (s, r) ← symbol distances r
  let (distance, r) ← extended distanceCodes s r
  return (.copy length distance, r)

/-- The tokens of a block up to its end mark, each of at least a bit. -/
def blockTokens (literals distances : PrefixCode) : Nat → Rising → List Token → Progress
  | 0, _, acc => .stop acc .truncated
  | fuel + 1, r, acc =>
    match symbol literals r with
    | .error e => .stop acc e
    | .ok (s, r) =>
      if s < 256 then blockTokens literals distances fuel r (.literal (UInt8.ofNat s) :: acc)
      else if s = 256 then .goOn acc r
      else
        match copyToken distances s r with
        | .error e => .stop acc e
        | .ok (t, r) => blockTokens literals distances fuel r (t :: acc)

def storedTokens : Nat → Bytes → List Token → Progress
  | 0, bs, acc => .goOn acc (Rising.ofBytes bs)
  | _ + 1, [], acc => .stop acc .truncated
  | n + 1, b :: bs, acc => storedTokens n bs (.literal b :: acc)

/-- A block without compression: its length, the complement of the length, and the bytes. -/
def storedBlock (r : Rising) (acc : List Token) : Progress :=
  match r.align.take? 32 with
  | none => .stop acc .truncated
  | some (header, r) =>
    let n := header % 65536
    if header / 65536 + n = 65535 then storedTokens n r.bytesLeft acc else .stop acc .corrupt

/-- The lengths of the code-length code, by position in `codeLengthOrder`. -/
def codeLengthLengths : List Nat → Nat → Rising → Array Nat → Except Stop (Array Nat × Rising)
  | [], _, r, acc => .ok (acc, r)
  | _, 0, r, acc => .ok (acc, r)
  | s :: order, n + 1, r, acc => do
    let (len, r) ← number 3 r
    codeLengthLengths order n r (acc.setIfInBounds s len)

/-- Code lengths until there are `total`, latest first. -/
def codeLengths (code : PrefixCode) (total : Nat) :
    Nat → Rising → List Nat → Except Stop (List Nat × Rising)
  | 0, _, _ => .error .truncated
  | fuel + 1, r, acc =>
    if acc.length = total then .ok (acc, r)
    else if total < acc.length then .error .corrupt
    else do
      let (s, r) ← symbol code r
      match s, acc with
      | 16, [] => .error .corrupt
      | 16, last :: _ =>
        let (n, r) ← number 2 r
        codeLengths code total fuel r (List.replicate (n + 3) last ++ acc)
      | 17, _ =>
        let (n, r) ← number 3 r
        codeLengths code total fuel r (List.replicate (n + 3) 0 ++ acc)
      | 18, _ =>
        let (n, r) ← number 7 r
        codeLengths code total fuel r (List.replicate (n + 11) 0 ++ acc)
      | len, _ => codeLengths code total fuel r (len :: acc)

/-- Whether lengths describe a usable code: a complete one, or one of at most one symbol. -/
def usable (lengths : List Nat) : Bool :=
  PrefixCode.isComplete lengths || (lengths.filter (· ≠ 0)).length ≤ 1

def ownCodes (r : Rising) : Except Stop ((PrefixCode × PrefixCode) × Rising) := do
  let (literalCount, r) ← number 5 r
  let (distanceCount, r) ← number 5 r
  let (lengthCount, r) ← number 4 r
  let literalCount := literalCount + 257
  let distanceCount := distanceCount + 1
  if 286 < literalCount ∨ 30 < distanceCount then .error .corrupt
  else
    let (lengths, r) ← codeLengthLengths codeLengthOrder (lengthCount + 4) r (Array.replicate 19 0)
    if !PrefixCode.isComplete lengths.toList then .error .corrupt
    else
      let total := literalCount + distanceCount
      let (all, r) ← codeLengths (.ofLengths lengths.toList) total (total + 1) r []
      let all := all.reverse
      let literals := all.take literalCount
      let distances := all.drop literalCount
      if usable literals && usable distances then
        .ok ((.ofLengths literals, .ofLengths distances), r)
      else .error .corrupt

/-- The tokens of the block that starts here, and whether it is the last one. -/
def block (fuel : Nat) (r : Rising) (acc : List Token) : Bool × Progress :=
  match number 3 r with
  | .error e => (true, .stop acc e)
  | .ok (header, r) =>
    let last := header % 2 == 1
    match header / 2 with
    | 0 => (last, storedBlock r acc)
    | 1 => (last, blockTokens fixedLiterals fixedDistances fuel r acc)
    | 2 =>
      match ownCodes r with
      | .error e => (last, .stop acc e)
      | .ok ((literals, distances), r) => (last, blockTokens literals distances fuel r acc)
    | _ => (last, .stop acc .corrupt)

def blocks : Nat → Rising → List Token → Progress
  | 0, _, acc => .stop acc .truncated
  | fuel + 1, r, acc =>
    match block (fuel + 1) r acc with
    | (true, p) => p
    | (false, p) =>
      match p.state with
      | .error _ => p
      | .ok r => blocks fuel r p.tokens

/-- The tokens of the stream at the start of `bs`, and the bytes after it or why it stopped. -/
def parse (bs : Bytes) : List Token × Except Stop Bytes :=
  let r := Rising.ofBytes bs
  let p := blocks (r.size + 1) r []
  (p.tokens.reverse, p.state.map Rising.bytesLeft)

/-! ## Writing -/

/-- The `n` low bits of `code` in the opposite order. -/
def mirrored : Nat → Nat → Nat
  | 0, _ => 0
  | n + 1, code => mirrored n (code / 2) + (code % 2) <<< n

def putFixed (s : BitSink) (symbol : Nat) : BitSink :=
  if symbol < 144 then s.put 8 (mirrored 8 (48 + symbol))
  else if symbol < 256 then s.put 9 (mirrored 9 (400 + (symbol - 144)))
  else if symbol < 280 then s.put 7 (mirrored 7 (symbol - 256))
  else s.put 8 (mirrored 8 (192 + (symbol - 280)))

/-- The last entry of a table whose base is at most `n`. -/
def entryFor (table : Array (Nat × Nat)) (n : Nat) : Nat :=
  (table.toList.takeWhile fun e => e.1 ≤ n).length - 1

def putToken (s : BitSink) : Token → BitSink
  | .literal b => putFixed s b.toNat
  | .copy length distance =>
    let i := entryFor lengthCodes length
    let (base, bits) := lengthCodes.getD i (0, 0)
    let s := (putFixed s (257 + i)).put bits (length - base)
    let k := entryFor distanceCodes distance
    let (start, extra) := distanceCodes.getD k (0, 0)
    (s.put 5 (mirrored 5 k)).put extra (distance - start)

/-- One block of `ts` in the fixed code. -/
def encode (ts : List Token) : BitSink :=
  putFixed (ts.foldl putToken (({} : BitSink).put 3 3)) 256

/-- One block of at most 65535 bytes as they are. -/
def storedBytes (last : Bool) (bs : Bytes) : Bytes :=
  (if last then 1 else 0) :: Bytes.lowBytes 2 bs.length ++
    Bytes.lowBytes 2 (65535 - bs.length) ++ bs

def storeFrom : Nat → Bytes → List Bytes → List Bytes
  | 0, bs, acc => storedBytes true (bs.take 65535) :: acc
  | n + 1, bs, acc =>
    if bs.length ≤ 65535 then storedBytes true bs :: acc
    else storeFrom n (bs.drop 65535) (storedBytes false (bs.take 65535) :: acc)

def store (bs : Bytes) : Bytes := (storeFrom (bs.length / 65535) bs []).reverse.flatten

def limits : Limits := { minLength := 4, maxLength := 258, maxDistance := 32768 }

/-- What copies of a short text may be. -/
def shortLimits : Limits := { limits with minLength := 3 }

/-- Texts of fewer bytes are searched in full. -/
def shortLength : Nat := 48

/-- Texts of at most so many bytes are never stored. -/
def alwaysCoded : Nat := 32

/-- The tokens of a text. Low levels take every copy at once. -/
def tokensOf (level : Nat) (bs : Bytes) : List Token :=
  if bs.length < shortLength then
    parsePatiently shortLimits (if level ≤ 3 then 0 else longEnough) bs
  else Lz77.parse limits bs

/-- The stream of a text; level zero stores it, and so does one that coding would not make
shorter. -/
def compress (level : Nat) (bs : Bytes) : Bytes :=
  if level = 0 then store bs
  else
    let coded := encode (tokensOf level bs)
    if alwaysCoded < bs.length ∧ bs.length ≤ coded.out.size + 1 then store bs
    else coded.finish.toList

end PacketWire.Compression.Deflate
