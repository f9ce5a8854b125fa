import PacketWire.Endpoint.Writing

/-!
# Copying

`Copy` moves bytes from a source to a sink, chunk by chunk, until the source ends; then it shuts
the sink down. A chunk is written and flushed before the next one is read, so that a sink that
is not ready holds the source up. Cancelling is noticed before a chunk is read and while one is
on its way out.
-/

namespace PacketWire

/-- Where a copy stands. -/
inductive Copy.Phase where
  | reading
  /-- Writing what is left of a chunk of `n` bytes. -/
  | writing (n : Nat) (rest : Bytes)
  /-- Flushing after a chunk of `n` bytes. -/
  | flushing (n : Nat)
  | closing
  deriving DecidableEq, Repr

structure Copy where
  chunk : Nat
  total : Nat := 0
  phase : Copy.Phase := .reading
  deriving DecidableEq, Repr

namespace Copy

variable {σ κ : Type} [Source σ] [Sink κ]

/-- Most bytes asked of the source, at least one. -/
def room (c : Copy) : Nat := max c.chunk 1

/-- How far a phase is from the next read. -/
def Phase.rank : Phase → Nat
  | .reading => 0
  | .writing .. => 2
  | .flushing _ => 1
  | .closing => 0

def finish (c : Copy) (s : σ) (k : κ) :
    Progress Copy (Except WireError Nat) × σ × κ :=
  match Sink.shutdown k with
  | (.pending, k) => (.waiting { c with phase := .closing }, s, k)
  | (.ready (.error e), k) => (.done (.error (.io e)), s, k)
  | (.ready (.ok ()), k) => (.done (.ok c.total), s, k)

/-- Copies as far as both ends let it. The result is the number of bytes copied. -/
def poll (cancelled : Bool) (c : Copy) (s : σ) (k : κ) :
    Progress Copy (Except WireError Nat) × σ × κ :=
  match _hc : c.phase with
  | .closing => c.finish s k
  | .reading =>
    if cancelled then (.done (.error .cancelled), s, k)
    else
      match _hr : Source.read c.room s with
      | (.pending, s') => (.waiting c, s', k)
      | (.ready (.error e), s') => (.done (.error (.io e)), s', k)
      | (.ready (.ok []), s') => c.finish s' k
      | (.ready (.ok (b :: bs)), s') =>
        poll cancelled { c with phase := .writing (bs.length + 1) (b :: bs) } s' k
  | .writing n rest =>
    if cancelled then (.done (.error .cancelled), s, k)
    else
      match writeAll rest k with
      | (.waiting rest, k) => (.waiting { c with phase := .writing n rest }, s, k)
      | (.done (.error e), k) => (.done (.error (.io e)), s, k)
      | (.done (.ok ()), k) => poll cancelled { c with phase := .flushing n } s k
  | .flushing n =>
    if cancelled then (.done (.error .cancelled), s, k)
    else
      match Sink.flush k with
      | (.pending, k) => (.waiting c, s, k)
      | (.ready (.error e), k) => (.done (.error (.io e)), s, k)
      | (.ready (.ok ()), k) =>
        poll cancelled { c with phase := .reading, total := c.total + n } s k
termination_by 3 * Source.backlog s + c.phase.rank
decreasing_by
  · have := Source.backlog_lt_of_bytes _hr
    simp only [Phase.rank]
    omega
  · simp [_hc, Phase.rank]
  · simp [_hc, Phase.rank]

end Copy

end PacketWire
