import PacketWire.Compression.PrefixCode
import PacketWire.Compression.Zstd.Fse

/-!
# Literals of a zstd block

A block first gives its literals: as they are, one byte repeated, or in a prefix code that the
block describes or an earlier block has described.
-/

namespace PacketWire.Compression.Zstd

open Fse

def maxBlockSize : Nat := 131072

def maxCodeLength : Nat := 12

/-- Splits bytes into halves, the high half first. -/
def halves (bs : Bytes) : List Nat :=
  bs.flatMap fun b => [b.toNat / 16, b.toNat % 16]

/-- Symbols that two states give in turn, latest first, until the bits end. -/
def alternate (t : Table) : Nat → Nat → Nat → Falling → List Nat → Option (List Nat)
  | 0, _, _, _, _ => none
  | fuel + 1, state, other, r, acc =>
    let acc := (t.cell state).symbol :: acc
    match t.advance state r with
    | none => some ((t.cell other).symbol :: acc)
    | some (state, r) => alternate t fuel other state r acc

/-- Most weights that are written out. -/
def maxWeights : Nat := 255

/-- Weights in a finite-state code. -/
def compressedWeights (bs : Bytes) : Option (List Nat) := do
  let ((log, counts), bs) ← readCounts 256 6 bs
  let t := Table.ofCounts log counts
  let r ← Falling.ofBackward bs
  let (a, r) ← t.start r
  let (b, r) ← t.start r
  let ws ← alternate t (maxWeights - 1) a b r []
  return ws.reverse

def readWeights : Bytes → Option (List Nat × Bytes)
  | [] => none
  | header :: bs =>
    let n := header.toNat
    if 128 ≤ n then
      let count := n - 127
      let used := (count + 1) / 2
      if bs.length < used then none
      else some ((halves (bs.take used)).take count, bs.drop used)
    else if bs.length < n then none
    else do
      let ws ← compressedWeights (bs.take n)
      return (ws, bs.drop n)

/-- The share of a symbol of weight `w`. -/
def share (w : Nat) : Nat := if w = 0 then 0 else 1 <<< (w - 1)

/-- All weights with the last one, which fills the code up; and the longest code. -/
def completeWeights (ws : List Nat) : Option (List Nat × Nat) :=
  if ws.any (maxCodeLength < ·) then none
  else
    let total := (ws.map share).foldl (· + ·) 0
    if total = 0 then none
    else
      let log := total.log2 + 1
      let rest := 1 <<< log - total
      if maxCodeLength < log ∨ rest ≠ 1 <<< rest.log2 then none
      else
        let all := ws ++ [rest.log2 + 1]
        let ones := all.count 1
        if ones < 2 ∨ ones % 2 = 1 then none else some (all, log)

/-- Inserts the symbols of weight `w` from the place `at` of the code space on. -/
def insertWeight (log w : Nat) : List (Nat × Nat) → Nat → PrefixCode → PrefixCode × Nat
  | [], place, t => (t, place)
  | (s, v) :: rest, place, t =>
    if v = w then
      let length := log + 1 - w
      insertWeight log w rest (place + share w)
        (PrefixCode.insert s (place / share w) length t)
    else insertWeight log w rest place t

/-- Codes in which symbols of small weight come first. -/
def insertWeights (log : Nat) (ws : List (Nat × Nat)) : Nat → Nat → PrefixCode → PrefixCode
  | 0, _, t => t
  | n + 1, place, t =>
    let (t, place) := insertWeight log (log - n) ws place t
    insertWeights log ws n place t

def codeOfWeights (ws : List Nat) (log : Nat) : PrefixCode :=
  insertWeights log ((List.range ws.length).zip ws) log 0 .absent

def readCode (bs : Bytes) : Option (PrefixCode × Bytes) := do
  let (ws, rest) ← readWeights bs
  let (all, log) ← completeWeights ws
  return (codeOfWeights all log, rest)

/-- Exactly `n` symbols, pushed to `acc`, and the bits after them. -/
def symbols (code : PrefixCode) : Nat → Falling → Array UInt8 → Option (Array UInt8 × Falling)
  | 0, r, acc => some (acc, r)
  | n + 1, r, acc =>
    match code.read Falling.bit? r with
    | .symbol s r => symbols code n r (acc.push (UInt8.ofNat s))
    | _ => none

/-- A stream of `n` symbols, which have to use up its bits. -/
def stream (code : PrefixCode) (n : Nat) (bs : Bytes) (acc : Array UInt8) :
    Option (Array UInt8) := do
  let (out, r) ← symbols code n (← Falling.ofBackward bs) acc
  if r.size = 0 then some out else none

/-- A stream of `n` symbols that may leave bits unread. A last byte of zero counts as eight bits. -/
def openStream (code : PrefixCode) (n : Nat) (bs : Bytes) (acc : Array UInt8) :
    Option (Array UInt8) := do
  let (out, _) ← symbols code n ((Falling.ofBackward bs).getD { rest := bs.reverse }) acc
  return out

/-- Longest code for which long streams are read without a look at their ends. -/
def maxOpenLength : Nat := 11

/-- Bytes from which on a stream is long. -/
def longStream : Nat := 8

/-- Four streams of equal text length, but for the last, after a table of their lengths. Of long
ones only the number of symbols tells where they end. -/
def fourStreams (code : PrefixCode) (n : Nat) (bs : Bytes) : Option (Array UInt8) :=
  if bs.length < 10 then none
  else
    let n1 := Bytes.ofLowBytes (bs.take 2)
    let n2 := Bytes.ofLowBytes ((bs.drop 2).take 2)
    let n3 := Bytes.ofLowBytes ((bs.drop 4).take 2)
    let n4 := bs.length - 6 - n1 - n2 - n3
    let segment := (n + 3) / 4
    if bs.length < 6 + n1 + n2 + n3 ∨ n < 3 * segment then none
    else if code.depth ≤ maxOpenLength ∧ 3 * segment < n ∧
        [n1, n2, n3, n4].all (longStream ≤ ·) then do
      let out ← openStream code segment (bs.take (6 + n1)) #[]
      let out ← openStream code segment (bs.take (6 + n1 + n2)) out
      let out ← openStream code segment (bs.take (6 + n1 + n2 + n3)) out
      openStream code (n - 3 * segment) bs out
    else do
      let rest := bs.drop 6
      let out ← stream code segment (rest.take n1) #[]
      let rest := rest.drop n1
      let out ← stream code segment (rest.take n2) out
      let rest := rest.drop n2
      let out ← stream code segment (rest.take n3) out
      stream code (n - 3 * segment) (rest.drop n3) out

structure LiteralsRead where
  literals : Bytes
  /-- The code that later blocks may use again. -/
  code : Option PrefixCode
  rest : Bytes

/-- How literals in a prefix code are laid out. -/
structure CodedHeader where
  headerSize : Nat
  textSize : Nat
  codedSize : Nat
  single : Bool

def codedHeader (bs : Bytes) : CodedHeader :=
  let word := Bytes.ofLowBytes (bs.take 5)
  match word / 4 % 4 with
  | 0 => ⟨3, word / 16 % 1024, word / 16384 % 1024, true⟩
  | 1 => ⟨3, word / 16 % 1024, word / 16384 % 1024, false⟩
  | 2 => ⟨4, word / 16 % 16384, word / 262144 % 16384, false⟩
  | _ => ⟨5, word / 16 % 262144, word / 4194304 % 262144, false⟩

/-- Literals in a prefix code: the block's own, or `earlier`. -/
def codedLiterals (limit : Nat) (own : Bool) (earlier : Option PrefixCode) (bs : Bytes) :
    Option LiteralsRead :=
  if bs.length < 5 then none
  else
    let h := codedHeader bs
    let body := bs.drop h.headerSize
    if limit < h.textSize ∨ body.length < h.codedSize then none
    else if !h.single && h.textSize < 6 then none
    else do
      let coded := body.take h.codedSize
      let (code, coded) ← if own then readCode coded else earlier.map (·, coded)
      let out ← if h.single then stream code h.textSize coded #[]
        else fourStreams code h.textSize coded
      return { literals := out.toList, code := some code, rest := body.drop h.codedSize }

/-- The header size and the text size of literals without a code. -/
def plainHeader (bs : Bytes) : Nat × Nat :=
  let word := Bytes.ofLowBytes (bs.take 3)
  match word / 4 % 4 with
  | 1 => (2, word / 16 % 4096)
  | 3 => (3, word / 16)
  | _ => (1, word / 8 % 32)

def readLiterals (limit : Nat) (earlier : Option PrefixCode) (bs : Bytes) :
    Option LiteralsRead :=
  match bs with
  | first :: _ :: _ =>
    let (headerSize, n) := plainHeader bs
    let body := bs.drop headerSize
    match first.toNat % 4 with
    | 0 =>
      if bs.length < headerSize ∨ limit < n ∨ body.length < n then none
      else some { literals := body.take n, code := earlier, rest := body.drop n }
    | 1 =>
      match body with
      | [] => none
      | b :: rest =>
        if limit < n then none
        else some { literals := List.replicate n b, code := earlier, rest }
    | 2 => codedLiterals limit true earlier bs
    | _ => codedLiterals limit false earlier bs
  | _ => none

end PacketWire.Compression.Zstd
