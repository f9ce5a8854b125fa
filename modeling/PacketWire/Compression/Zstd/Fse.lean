import PacketWire.Compression.Bits

/-!
# State tables

A finite-state code spreads each symbol over as many cells of a table as it is frequent. A
cell names the symbol, and says how many bits lead on to the next cell and from which base.
`Fse.readCounts` reads the frequencies of a table, `Fse.Table.ofCounts` lays it out, and
`Fse.Table.cellBefore` finds the cell of a symbol that leads to a given one.
-/

namespace PacketWire.Compression.Fse

structure Cell where
  symbol : Nat := 0
  bits : Nat := 0
  base : Nat := 0
  deriving Repr, Inhabited

structure Table where
  /-- The table has two to the power of `log` cells. -/
  log : Nat
  cells : Array Cell
  deriving Repr, Inhabited

/-- How many symbols are skipped after one of frequency zero: two bits at a time, as long as
they are three. -/
def zeroRun : Nat → Rising → Nat → Option (Nat × Rising)
  | 0, _, _ => none
  | fuel + 1, r, n => do
    let (v, r) ← r.take? 2
    if v = 3 then zeroRun fuel r (n + 3) else return (n + v, r)

/-- One frequency out of `remaining - 1` cells still free. Small values take a bit less. -/
def readCount (remaining : Nat) (r : Rising) : Option (Nat × Rising) := do
  let b := remaining.log2
  let threshold := 1 <<< b
  let short := 2 * threshold - 1 - remaining
  let (v, r) ← r.peek? (b + 1)
  let low := v % threshold
  if low < short then
    let (_, r) ← r.take? b
    return (low, r)
  else
    let (_, r) ← r.take? (b + 1)
    return (if threshold ≤ v then v - short else v, r)

/-- Frequencies of at most `symbols` symbols, latest first, until no cell is free. -/
def countsFrom (symbols : Nat) : Nat → Nat → Rising → List Int → Option (List Int × Rising)
  | 0, _, _, _ => none
  | fuel + 1, remaining, r, acc =>
    if remaining ≤ 1 then
      if remaining = 1 ∧ acc.length ≤ symbols then some (acc, r) else none
    else if symbols ≤ acc.length then none
    else do
      let (v, r) ← readCount remaining r
      let count : Int := (v : Int) - 1
      let remaining := remaining - count.natAbs
      let acc := count :: acc
      if count = 0 ∧ 1 < remaining then
        let (n, r) ← zeroRun (symbols + 1) r 0
        countsFrom symbols fuel remaining r (List.replicate n 0 ++ acc)
      else countsFrom symbols fuel remaining r acc

/-- The size of a table and its frequencies, and the bytes after them. -/
def readCounts (symbols maxLog : Nat) (bs : Bytes) : Option ((Nat × List Int) × Bytes) := do
  let padding := 8
  let (v, r) ← (Rising.ofBytes (bs ++ Bytes.zeros padding)).take? 4
  let log := v + 5
  if maxLog < log then none
  else
    let (counts, r) ← countsFrom symbols (symbols + 2) (1 <<< log + 1) r []
    let left := r.size / 8
    if left < padding then none
    else return ((log, counts.reverse), bs.drop (bs.length + padding - left))

def numbered (counts : List Int) : List (Nat × Int) :=
  (List.range counts.length).zip counts

/-- Puts the symbols of less than one cell at the high end. -/
def placeRare : List (Nat × Int) → Nat → Array Nat → Array Nat × Nat
  | [], free, cells => (cells, free)
  | (s, c) :: rest, free, cells =>
    if c < 0 then placeRare rest (free - 1) (cells.setIfInBounds (free - 1) s)
    else placeRare rest free cells

/-- The next place of the walk over the table that is below `free`. -/
def nextPlace (size free : Nat) : Nat → Nat → Nat
  | 0, place => place
  | fuel + 1, place =>
    let place := (place + (size / 2 + size / 8 + 3)) % size
    if place < free then place else nextPlace size free fuel place

def spread (size free : Nat) : List Nat → Nat → Array Nat → Array Nat
  | [], _, cells => cells
  | s :: ss, place, cells =>
    spread size free ss (nextPlace size free size place) (cells.setIfInBounds place s)

/-- The cells of a table from its symbols in order; `next` counts the cells of each symbol. -/
def finishCells (log : Nat) : List Nat → Array Nat → Array Cell → Array Cell
  | [], _, acc => acc
  | s :: ss, next, acc =>
    let n := next.getD s 0
    let bits := log - n.log2
    finishCells log ss (next.setIfInBounds s (n + 1))
      (acc.push { symbol := s, bits, base := n <<< bits - 1 <<< log })

def Table.ofCounts (log : Nat) (counts : List Int) : Table :=
  let size := 1 <<< log
  let (cells, free) := placeRare (numbered counts) size (Array.replicate size 0)
  let common := (numbered counts).flatMap fun (s, c) => List.replicate c.toNat s
  let symbols := spread size free common 0 cells
  { log, cells := finishCells log symbols.toList (counts.map Int.natAbs).toArray #[] }

def Table.constant (symbol : Nat) : Table := { log := 0, cells := #[{ symbol }] }

def Table.cell (t : Table) (state : Nat) : Cell := t.cells.getD state {}

def Table.start (t : Table) (r : Falling) : Option (Nat × Falling) := r.take? t.log

def Table.advance (t : Table) (state : Nat) (r : Falling) : Option (Nat × Falling) := do
  let c := t.cell state
  let (v, r) ← r.take? c.bits
  return (c.base + v, r)

/-- A state of `symbol` from which `state` can follow; any one for `none`. -/
def Table.cellBefore (t : Table) (symbol : Nat) : Option Nat → Nat
  | none => (t.cells.toList.findIdx fun c => c.symbol == symbol)
  | some state =>
    t.cells.toList.findIdx fun c =>
      c.symbol == symbol && c.base ≤ state && state < c.base + 1 <<< c.bits

end PacketWire.Compression.Fse
