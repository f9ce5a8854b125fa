import PacketWire.Endpoint.Basic
import PacketWire.Codec.Decode

/-!
# Packet streams

An `Inbox` turns whatever a source delivers into packets. Bytes gather in one buffer, and every
complete frame is drained from it before the source is asked again, so packets come in the order
of the wire however the bytes were cut. The stream is over after its first error, at the end of
the source and when it is cancelled. How much is asked of the source at once depends on the memory
behind the buffer, a `Backing`.
-/

namespace PacketWire

structure Backing where
  size : Nat
  /-- Bytes at the front that were given away. -/
  gone : Nat := 0
  deriving DecidableEq, Repr

namespace Backing

/-- What is free behind `held` bytes. -/
def free (s : Backing) (held : Nat) : Nat := s.size - s.gone - held

def give (n : Nat) (s : Backing) : Backing := { s with gone := s.gone + n }

def leastSize : Nat := 8

/-- Makes room for `n` bytes behind `held` bytes. -/
def reserve (n held : Nat) (s : Backing) : Backing :=
  if n ≤ s.free held then s
  else if held + n ≤ s.size ∧ held ≤ s.gone then { s with gone := 0 }
  else { s with size := max leastSize (max (2 * s.size) (s.gone + held + n)) }

theorem le_free_reserve (n held : Nat) (s : Backing) : n ≤ (s.reserve n held).free held := by
  unfold reserve
  split
  · assumption
  · split <;> simp only [free] <;> omega

end Backing

inductive Inbox.Phase where
  | gathering
  /-- The buffer may hold complete frames. -/
  | draining
  | over
  deriving DecidableEq, Repr

structure Inbox where
  codec : Codec
  /-- Bytes that there is to be room for before each read. -/
  chunk : Nat
  buffer : Bytes := []
  backing : Backing := { size := chunk }
  phase : Inbox.Phase := .gathering

namespace Inbox

variable {σ : Type} [Source σ]

/-- Makes room for a chunk, at least one byte. -/
def prepare (i : Inbox) : Inbox :=
  { i with backing := i.backing.reserve (max i.chunk 1) i.buffer.length }

def room (i : Inbox) : Nat := i.prepare.backing.free i.buffer.length

theorem room_pos (i : Inbox) : 0 < i.room := by
  have h := Backing.le_free_reserve (max i.chunk 1) i.buffer.length i.backing
  simp only [room, prepare]
  omega

/-- Leaves `left` in the buffer. -/
def keep (i : Inbox) (left : Bytes) : Inbox :=
  { i with buffer := left, backing := i.backing.give (i.buffer.length - left.length) }

/-- Waits for more bytes of the frame at the front of the buffer. -/
def gather (i : Inbox) : Inbox :=
  { i with
    phase := .gathering,
    backing := i.backing.reserve (Frame.missing i.buffer) i.buffer.length }

def isOver (i : Inbox) : Bool := i.phase = .over

/-- Ends the stream; bytes that are no packet yet are gone. -/
def finish (i : Inbox) : Inbox := { i with buffer := [], phase := .over }

def switch (i : Inbox) (threshold : Int32) : Inbox :=
  { i with codec := i.codec.switch threshold }

/-- What the end of the source means for the bytes left over. -/
def ending (i : Inbox) : Option (Except WireError Packet) :=
  if i.buffer.isEmpty then none else some (.error .unexpectedEndOfStream)

/-- How far a phase is from the next read. -/
def Phase.rank : Phase → Nat
  | .draining => 1
  | _ => 0

/-- The answer to a poll: the next packet or the error that ends the stream, or `none` after
its end. -/
structure Answer (σ : Type) where
  next : Poll (Option (Except WireError Packet))
  inbox : Inbox
  source : σ
  reserves : Reserves

def poll (cancelled : Bool) (i : Inbox) (s : σ) (r : Reserves) : Answer σ :=
  match _hp : i.phase with
  | .over => { next := .ready none, inbox := i, source := s, reserves := r }
  | .draining =>
    if cancelled then
      { next := .ready none, inbox := i.finish, source := s, reserves := r }
    else
      let t := i.codec.next i.buffer r
      match t.result with
      | .ok (some p) =>
        { next := .ready (some (.ok p)), inbox := i.keep t.left, source := s,
          reserves := t.reserves }
      | .error e =>
        { next := .ready (some (.error e)), inbox := i.finish, source := s,
          reserves := t.reserves }
      | .ok none =>
        poll cancelled (i.keep t.left).gather s t.reserves
  | .gathering =>
    if cancelled then
      { next := .ready none, inbox := i.finish, source := s, reserves := r }
    else
      match _hr : Source.read i.room s with
      | (.pending, s') =>
        { next := .pending, inbox := i.prepare, source := s', reserves := r }
      | (.ready (.error e), s') =>
        { next := .ready (some (.error (.io e))), inbox := i.finish, source := s',
          reserves := r }
      | (.ready (.ok []), s') =>
        { next := .ready i.ending, inbox := i.finish, source := s', reserves := r }
      | (.ready (.ok (b :: bs)), s') =>
        poll cancelled { i.prepare with buffer := i.buffer ++ b :: bs, phase := .draining } s' r
termination_by 2 * Source.backlog s + i.phase.rank
decreasing_by
  · simp [_hp, gather, Phase.rank]
  · have := Source.backlog_lt_of_bytes _hr
    simp only [Phase.rank]
    omega

end Inbox

end PacketWire
