import PacketWire.Basic
import PacketWire.Metrics

/-!
# Buffer pool

Buffers are taken from a stack of free ones and given back to it. A `Buffer` knows its
capacity, which never shrinks and decides whether the buffer is kept on release. A `Pool`
counts the buffers that are out, and may limit them. `Reserves` is what one process shares
between all its connections: the pool and the counters.
-/

namespace PacketWire

/-- Bytes in memory that holds `capacity` of them without growing. -/
structure Buffer where
  bytes : Bytes := []
  capacity : Nat := 0
  deriving DecidableEq, Repr, Inhabited

namespace Buffer

def length (b : Buffer) : Nat := b.bytes.length

/-- The capacity after room for `needed` bytes was asked for: doubled when it has to grow, and
at least eight. -/
def grownCapacity (capacity needed : Nat) : Nat :=
  if needed ≤ capacity then capacity else max (max (2 * capacity) needed) 8

/-- Cuts the content to `n` bytes, or fills it up with zeros. -/
def resize (b : Buffer) (n : Nat) : Buffer :=
  { bytes := b.bytes.take n ++ Bytes.zeros (n - b.bytes.length),
    capacity := grownCapacity b.capacity n }

def append (b : Buffer) (bs : Bytes) : Buffer :=
  { bytes := b.bytes ++ bs,
    capacity := grownCapacity b.capacity (b.bytes.length + bs.length) }

/-- Replaces the bytes from position `offset` on. -/
def overwrite (b : Buffer) (offset : Nat) (bs : Bytes) : Buffer :=
  { b with bytes := b.bytes.take offset ++ bs ++ b.bytes.drop (offset + bs.length) }

def clear (b : Buffer) : Buffer := { b with bytes := [] }

def describe (b : Buffer) : String :=
  "PooledBuffer \x7b len: " ++ toString b.length ++ ", capacity: " ++ toString b.capacity ++ " \x7d"

end Buffer

structure Pool where
  /-- Free buffers, the one to hand out next first. -/
  free : List Buffer := []
  outstanding : Nat := 0
  /-- Most buffers out at once; `0` is no limit. -/
  maxOutstanding : Nat := 0
  /-- Largest capacity kept on release. -/
  maxPooledSize : Nat := 65536
  deriving DecidableEq, Repr, Inhabited

namespace Pool

/-- Largest capacity that a pool keeps by default. -/
def defaultMaxPooledSize : Nat := 65536

def startingCapacity : Nat := 1024

def withLimits (preallocated maxPooledSize maxOutstanding : Nat) : Pool :=
  { free := List.replicate preallocated
      { bytes := [], capacity := min startingCapacity maxPooledSize },
    outstanding := 0, maxOutstanding, maxPooledSize }

def ofSize (preallocated : Nat) : Pool := withLimits preallocated defaultMaxPooledSize 0

def default : Pool := ofSize 50

def available (p : Pool) : Nat := p.free.length

def describe (p : Pool) : String :=
  "BufferPool \x7b available: " ++ toString p.available ++ ", outstanding: " ++
    toString p.outstanding ++ " \x7d"

/-- Whether the limit on buffers out is reached. -/
def exhausted (p : Pool) : Prop := p.maxOutstanding ≠ 0 ∧ p.maxOutstanding ≤ p.outstanding

instance (p : Pool) : Decidable p.exhausted := by unfold exhausted; infer_instance

/-- A zeroed buffer of `n` bytes, or the count of buffers out when the limit is reached. -/
def acquire (p : Pool) (n : Nat) : Except WireError (Buffer × Pool) :=
  if p.exhausted then .error (.poolExhausted p.outstanding)
  else
    match p.free with
    | [] => .ok (({} : Buffer).resize n, { p with outstanding := p.outstanding + 1 })
    | b :: free => .ok (b.resize n, { p with free, outstanding := p.outstanding + 1 })

/-- Takes a buffer back. One that has grown too large is dropped. -/
def release (p : Pool) (b : Buffer) : Pool :=
  { p with
    outstanding := p.outstanding - 1,
    free := if b.capacity ≤ p.maxPooledSize then b.clear :: p.free else p.free }

end Pool

structure Reserves where
  pool : Pool := Pool.default
  metrics : Metrics := {}
  deriving DecidableEq, Repr, Inhabited

namespace Reserves

/-- Takes a buffer from the pool. A refusal is counted. -/
def acquire (r : Reserves) (n : Nat) : Except WireError Buffer × Reserves :=
  match r.pool.acquire n with
  | .ok (b, pool) => (.ok b, { r with pool })
  | .error e => (.error e, { r with metrics := r.metrics.poolExhausted })

def release (r : Reserves) (b : Buffer) : Reserves := { r with pool := r.pool.release b }

def count (r : Reserves) (event : Metrics → Metrics) : Reserves :=
  { r with metrics := event r.metrics }

end Reserves

end PacketWire
