import PacketWire.Endpoint.Basic

/-!
# Pipes

A pipe holds bytes between a writer and a reader, first in first out. A bounded pipe makes the
writer wait while it is full. A `Duplex` is one end of a pair of pipes in opposite directions.
-/

namespace PacketWire

/-- How many bytes a pipe holds. -/
inductive Capacity where
  | unbounded
  | bounded (bytes : Nat)
  deriving DecidableEq, Repr, Inhabited

structure Pipe where
  /-- Most bytes held at once; `none` is no limit. -/
  limit : Option Nat := none
  held : Bytes := []
  /-- Whether one of the ends is gone or the writer is finished. -/
  closed : Bool := false
  deriving DecidableEq, Repr

namespace Pipe

/-- An empty pipe. A bounded one holds a byte at least. -/
def ofCapacity : Capacity → Pipe
  | .unbounded => {}
  | .bounded n => { limit := some (max n 1) }

/-- How many of `n` bytes there is room for. -/
def room (p : Pipe) (n : Nat) : Nat :=
  match p.limit with
  | none => n
  | some most => min n (most - p.held.length)

theorem room_le (p : Pipe) (n : Nat) : p.room n ≤ n := by
  unfold room; split <;> omega

/-- The reader gets what is held, and the end once the pipe is closed. Without room it does not
wait. -/
def read (most : Nat) (p : Pipe) : Poll (Except IoError Bytes) × Pipe :=
  if p.held.isEmpty then (if p.closed || most == 0 then .ready (.ok []) else .pending, p)
  else (.ready (.ok (p.held.take most)), { p with held := p.held.drop most })

/-- A closed pipe takes nothing more. A full one lets the writer wait, if there is anything to
write. -/
def write (bs : Bytes) (p : Pipe) : Poll (Except IoError Nat) × Pipe :=
  if p.closed then (.ready (.error (.ofKind .brokenPipe)), p)
  else if bs.isEmpty then (.ready (.ok 0), p)
  else
    let n := p.room bs.length
    if n = 0 then (.pending, p)
    else (.ready (.ok n), { p with held := p.held ++ bs.take n })

/-- Either end goes, or the writer is finished. -/
def close (p : Pipe) : Pipe := { p with closed := true }

theorem read_length_le {most : Nat} {p p' : Pipe} {bs : Bytes}
    (h : p.read most = (.ready (.ok bs), p')) : bs.length ≤ most := by
  unfold read at h
  split at h
  · split at h <;> simp at h
    simp [h.1]
  · simp at h
    rw [← h.1]
    exact List.length_take_le ..

theorem read_held_of_bytes {most : Nat} {p p' : Pipe} {b : UInt8} {bs : Bytes}
    (h : p.read most = (.ready (.ok (b :: bs)), p')) : p'.held.length < p.held.length := by
  unfold read at h
  split at h
  · split at h <;> simp at h
  · simp at h
    obtain ⟨hb, rfl⟩ := h
    have hl := congrArg List.length hb
    simp only [List.length_take, List.length_cons] at hl
    simp only [List.length_drop]
    omega

theorem read_ne_error {most : Nat} {p p' : Pipe} {e : IoError} :
    p.read most ≠ (.ready (.error e), p') := by
  unfold read
  split
  · split <;> simp
  · simp

theorem write_taken_le {bs : Bytes} {p p' : Pipe} {n : Nat}
    (h : p.write bs = (.ready (.ok n), p')) : n ≤ bs.length := by
  unfold write at h
  split at h
  · simp at h
  · split at h
    · simp at h; omega
    · simp only at h
      split at h <;> simp at h
      have := p.room_le bs.length
      omega

theorem write_error {bs : Bytes} {p p' : Pipe} {e : IoError}
    (h : p.write bs = (.ready (.error e), p')) : e = .ofKind .brokenPipe := by
  unfold write at h
  split at h
  · simp at h; exact h.1.symm
  · split at h
    · simp at h
    · simp only at h
      split at h <;> simp at h

instance : Source Pipe where
  read := read
  backlog p := p.held.length
  length_le := read_length_le
  backlog_lt_of_bytes := read_held_of_bytes
  backlog_lt_of_error h := absurd h read_ne_error

instance : Sink Pipe where
  write := write
  flush p := (.ready (.ok ()), p)
  shutdown p := (.ready (.ok ()), p.close)
  patience _ := 0
  taken_le := write_taken_le
  patience_le _ := Nat.le_refl 0
  patience_lt_of_interrupted h hk := by
    rw [write_error h] at hk
    simp [IoError.ofKind] at hk

end Pipe

/-- One end of a pair: it reads from `incoming` and writes to `outgoing`. -/
structure Duplex where
  incoming : Pipe
  outgoing : Pipe
  deriving DecidableEq, Repr

namespace Duplex

def ofSize (n : Nat) : Duplex :=
  { incoming := { limit := some n }, outgoing := { limit := some n } }

/-- The other end of the pair. -/
def flip (d : Duplex) : Duplex := { incoming := d.outgoing, outgoing := d.incoming }

/-- Both pipes are closed when an end is gone. -/
def close (d : Duplex) : Duplex :=
  { incoming := d.incoming.close, outgoing := d.outgoing.close }

def onIncoming {α : Type} (act : Pipe → α × Pipe) (d : Duplex) : α × Duplex :=
  let (a, incoming) := act d.incoming
  (a, { d with incoming })

def onOutgoing {α : Type} (act : Pipe → α × Pipe) (d : Duplex) : α × Duplex :=
  let (a, outgoing) := act d.outgoing
  (a, { d with outgoing })

theorem onIncoming_eq {α : Type} {act : Pipe → α × Pipe} {d d' : Duplex} {a : α}
    (h : d.onIncoming act = (a, d')) : act d.incoming = (a, d'.incoming) := by
  simp [onIncoming] at h
  obtain ⟨rfl, rfl⟩ := h
  rfl

theorem onOutgoing_eq {α : Type} {act : Pipe → α × Pipe} {d d' : Duplex} {a : α}
    (h : d.onOutgoing act = (a, d')) : act d.outgoing = (a, d'.outgoing) := by
  simp [onOutgoing] at h
  obtain ⟨rfl, rfl⟩ := h
  rfl

instance : Transport Duplex where
  read n := onIncoming (Pipe.read n)
  backlog d := d.incoming.held.length
  length_le h := Pipe.read_length_le (onIncoming_eq h)
  backlog_lt_of_bytes h := Pipe.read_held_of_bytes (onIncoming_eq h)
  backlog_lt_of_error h := absurd (onIncoming_eq h) Pipe.read_ne_error
  write bs := onOutgoing (Pipe.write bs)
  flush d := (.ready (.ok ()), d)
  shutdown d := (.ready (.ok ()), { d with outgoing := d.outgoing.close })
  patience _ := 0
  taken_le h := Pipe.write_taken_le (onOutgoing_eq h)
  patience_le _ := Nat.le_refl 0
  patience_lt_of_interrupted h hk := by
    rw [Pipe.write_error (onOutgoing_eq h)] at hk
    simp [IoError.ofKind] at hk
  callsBack _ := true
  release := close

end Duplex

end PacketWire
