import PacketWire.Compression.Lz77
import PacketWire.Compression.Zstd.Fse

/-!
# Sequences of a zstd block

After its literals a block tells, in three interleaved state codes, how many literals to take,
and then how much to copy from where. Distances may name one of the last three again.
-/

namespace PacketWire.Compression.Zstd

open Fse

/-- Base value and number of extra bits of each code for a count of literals. -/
def literalCountCodes : Array (Nat × Nat) :=
  (Array.range 16).map (·, 0) ++
  #[(16, 1), (18, 1), (20, 1), (22, 1), (24, 2), (28, 2), (32, 3), (40, 3), (48, 4), (64, 6),
    (128, 7), (256, 8), (512, 9), (1024, 10), (2048, 11), (4096, 12), (8192, 13), (16384, 14),
    (32768, 15), (65536, 16)]

def copyLengthCodes : Array (Nat × Nat) :=
  (Array.range 32).map (fun n => (n + 3, 0)) ++
  #[(35, 1), (37, 1), (39, 1), (41, 1), (43, 2), (47, 2), (51, 3), (59, 3), (67, 4), (83, 4),
    (99, 5), (131, 7), (259, 8), (515, 9), (1027, 10), (2051, 11), (4099, 12), (8195, 13),
    (16387, 14), (32771, 15), (65539, 16)]

def usualLiteralCounts : Table := .ofCounts 6
  [4, 3, 2, 2, 2, 2, 2, 2, 2, 2, 2, 2, 2, 1, 1, 1, 2, 2, 2, 2, 2, 2, 2, 2, 2, 3, 2, 1, 1, 1, 1, 1,
   -1, -1, -1, -1]

def usualCopyLengths : Table := .ofCounts 6
  [1, 4, 3, 2, 2, 2, 2, 2, 2, 1, 1, 1, 1, 1, 1, 1, 1, 1, 1, 1, 1, 1, 1, 1, 1, 1, 1, 1, 1, 1, 1, 1,
   1, 1, 1, 1, 1, 1, 1, 1, 1, 1, 1, 1, 1, 1, -1, -1, -1, -1, -1, -1, -1]

def usualDistances : Table := .ofCounts 5
  [1, 1, 1, 1, 1, 1, 2, 2, 2, 1, 1, 1, 1, 1, 1, 1, 1, 1, 1, 1, 1, 1, 1, 1, -1, -1, -1, -1, -1]

/-- The tables of the three codes. -/
structure Tables where
  literalCounts : Table
  distances : Table
  copyLengths : Table

/-- The last three distances, the latest first. -/
structure Recent where
  first : Nat := 1
  second : Nat := 4
  third : Nat := 8

/-- The distance that a written value means. Up to three it names a recent one, counted from the
second after a copy without literals. -/
def Recent.resolve (h : Recent) (value literals : Nat) : Option (Nat × Recent) :=
  if 3 < value then some (value - 3, ⟨value - 3, h.first, h.second⟩)
  else
    match value + (if literals = 0 then 1 else 0) with
    | 1 => some (h.first, h)
    | 2 => some (h.second, ⟨h.second, h.first, h.third⟩)
    | 3 => some (h.third, ⟨h.third, h.first, h.second⟩)
    | _ => if h.first ≤ 1 then none
           else some (h.first - 1, ⟨h.first - 1, h.first, h.second⟩)

structure Sequence where
  literals : Nat
  length : Nat
  distance : Nat

def readCountOfSequences : Bytes → Option (Nat × Bytes)
  | [] => none
  | a :: bs =>
    if a < 128 then some (a.toNat, bs)
    else
      match bs with
      | b :: bs =>
        if a < 255 then some ((a.toNat - 128) * 256 + b.toNat, bs)
        else
          match bs with
          | c :: bs => some (b.toNat + 256 * c.toNat + 32512, bs)
          | [] => none
      | [] => none

/-- One of the three tables: the usual one, a constant, one described here, or the one of the
block before. -/
def readTable (mode symbols maxLog : Nat) (usual : Table) (earlier : Option Table) (bs : Bytes) :
    Option (Table × Bytes) :=
  match mode with
  | 0 => some (usual, bs)
  | 1 =>
    match bs with
    | [] => none
    | s :: bs => if symbols ≤ s.toNat then none else some (.constant s.toNat, bs)
  | 2 => do
    let ((log, counts), bs) ← readCounts symbols maxLog bs
    return (.ofCounts log counts, bs)
  | _ => earlier.map (·, bs)

def readTables (modes : Nat) (earlier : Option Tables) (bs : Bytes) : Option (Tables × Bytes) := do
  let (literalCounts, bs) ← readTable (modes / 64) 36 9 usualLiteralCounts
    (earlier.map (·.literalCounts)) bs
  let (distances, bs) ← readTable (modes / 16 % 4) 32 8 usualDistances
    (earlier.map (·.distances)) bs
  let (copyLengths, bs) ← readTable (modes / 4 % 4) 53 9 usualCopyLengths
    (earlier.map (·.copyLengths)) bs
  return ({ literalCounts, distances, copyLengths }, bs)

structure States where
  literalCount : Nat
  distance : Nat
  copyLength : Nat

def startStates (t : Tables) (r : Falling) : Option (States × Falling) := do
  let (literalCount, r) ← t.literalCounts.start r
  let (distance, r) ← t.distances.start r
  let (copyLength, r) ← t.copyLengths.start r
  return ({ literalCount, distance, copyLength }, r)

def advanceStates (t : Tables) (s : States) (r : Falling) : Option (States × Falling) := do
  let (literalCount, r) ← t.literalCounts.advance s.literalCount r
  let (copyLength, r) ← t.copyLengths.advance s.copyLength r
  let (distance, r) ← t.distances.advance s.distance r
  return ({ literalCount, distance, copyLength }, r)

def readSequence (t : Tables) (s : States) (recent : Recent) (r : Falling) :
    Option (Sequence × Recent × Falling) := do
  let distanceCode := (t.distances.cell s.distance).symbol
  let (lengthBase, lengthBits) ← copyLengthCodes[(t.copyLengths.cell s.copyLength).symbol]?
  let (countBase, countBits) ← literalCountCodes[(t.literalCounts.cell s.literalCount).symbol]?
  let (d, r) ← r.take? distanceCode
  let (l, r) ← r.take? lengthBits
  let (c, r) ← r.take? countBits
  let literals := countBase + c
  let (distance, recent) ← recent.resolve (1 <<< distanceCode + d) literals
  return ({ literals, length := lengthBase + l, distance }, recent, r)

/-- `n` sequences, latest first. They have to use up the bits. -/
def readSequences (t : Tables) :
    Nat → States → Recent → Falling → List Sequence → Option (List Sequence × Recent)
  | 0, _, recent, r, acc => if r.size = 0 then some (acc, recent) else none
  | n + 1, s, recent, r, acc => do
    let (q, recent, r) ← readSequence t s recent r
    if n = 0 then readSequences t n s recent r (q :: acc)
    else
      let (s, r) ← advanceStates t s r
      readSequences t n s recent r (q :: acc)

structure SequencesRead where
  sequences : List Sequence
  recent : Recent
  /-- The tables that later blocks may use again. -/
  tables : Option Tables

def readSection (earlier : Option Tables) (recent : Recent) (bs : Bytes) :
    Option SequencesRead := do
  let (n, bs) ← readCountOfSequences bs
  if n = 0 then
    if bs.isEmpty then some { sequences := [], recent, tables := earlier } else none
  else
    match bs with
    | [] => none
    | modes :: bs =>
      if modes.toNat % 4 ≠ 0 then none
      else
        let (t, bs) ← readTables modes.toNat earlier bs
        let r ← Falling.ofBackward bs
        let (s, r) ← startStates t r
        let (qs, recent) ← readSequences t n s recent r []
        return { sequences := qs.reverse, recent, tables := some t }

/-- A number of bits and their value. -/
abbrev Field := Nat × Nat

/-- The last entry of a table whose base is at most `n`, with the extra bits that make `n`. -/
def codeFor (table : Array (Nat × Nat)) (n : Nat) : Nat × Field :=
  let i := (table.toList.takeWhile fun e => e.1 ≤ n).length - 1
  let (base, bits) := table.getD i (0, 0)
  (i, (bits, n - base))

/-- The code of a distance that is written in full. -/
def distanceCode (distance : Nat) : Nat × Field :=
  let value := distance + 3
  (value.log2, (value.log2, value - 1 <<< value.log2))

/-- The bits that lead from one state to the next. -/
def stepField (t : Table) (state next : Nat) : Field :=
  let c := t.cell state
  (c.bits, next - c.base)

/-- The fields of sequences, latest first, after the states that they start from. -/
def sequenceFields : List Sequence → Option States → List Field → States × List Field
  | [], states, fields => (states.getD ⟨0, 0, 0⟩, fields)
  | q :: qs, after, fields =>
    let (lc, lf) := codeFor literalCountCodes q.literals
    let (mc, mf) := codeFor copyLengthCodes q.length
    let (dc, df) := distanceCode q.distance
    let s : States :=
      { literalCount := usualLiteralCounts.cellBefore lc (after.map (·.literalCount)),
        copyLength := usualCopyLengths.cellBefore mc (after.map (·.copyLength)),
        distance := usualDistances.cellBefore dc (after.map (·.distance)) }
    let steps := match after with
      | none => []
      | some a =>
        [stepField usualLiteralCounts s.literalCount a.literalCount,
         stepField usualCopyLengths s.copyLength a.copyLength,
         stepField usualDistances s.distance a.distance]
    sequenceFields qs (some s) (df :: mf :: lf :: steps ++ fields)

def countOfSequencesBytes (n : Nat) : Bytes :=
  if n < 128 then [UInt8.ofNat n]
  else if n < 32512 then [UInt8.ofNat (n / 256 + 128), UInt8.ofNat n]
  else 255 :: Bytes.lowBytes 2 (n - 32512)

def sectionBytes (latestFirst : List Sequence) : Bytes :=
  match latestFirst with
  | [] => [0]
  | qs =>
    let (s, fields) := sequenceFields qs none []
    let all := (6, s.literalCount) :: (5, s.distance) :: (6, s.copyLength) :: fields
    let sink := all.reverse.foldl (fun (k : BitSink) f => k.put f.1 f.2) {}
    countOfSequencesBytes qs.length ++ 0 :: ((sink.put 1 1).finish.toList)

end PacketWire.Compression.Zstd
