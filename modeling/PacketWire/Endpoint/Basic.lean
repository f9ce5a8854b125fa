import PacketWire.Basic

/-!
# Byte sources and sinks

The two ends of a transport as the framing sees them. Neither end ever blocks: it is polled,
and may answer that it is not ready. A `Source` hands out bytes and a `Sink` takes them.

An operation that takes several polls is a value too. Polling it gives a `Progress`: what is
left of the operation, or its result. `drive` polls an operation again and again; `readExact` is
the one that fills a buffer.
-/

namespace PacketWire

/-- The answer to one poll. -/
inductive Poll (α : Type) where
  | pending
  | ready (answer : α)
  deriving DecidableEq, Repr

/-- Something that bytes can be read from. -/
class Source (σ : Type) where
  /-- Asks for bytes, at most as many as there is room for. No bytes are the end of stream. -/
  read : Nat → σ → Poll (Except IoError Bytes) × σ
  /-- A bound on the answers that the source can still give without a pause. -/
  backlog : σ → Nat
  length_le : ∀ {room : Nat} {s s' : σ} {bs : Bytes},
    read room s = (.ready (.ok bs), s') → bs.length ≤ room
  backlog_lt_of_bytes : ∀ {room : Nat} {s s' : σ} {b : UInt8} {bs : Bytes},
    read room s = (.ready (.ok (b :: bs)), s') → backlog s' < backlog s
  backlog_lt_of_error : ∀ {room : Nat} {s s' : σ} {e : IoError},
    read room s = (.ready (.error e), s') → backlog s' < backlog s

/-- Something that bytes can be written to. -/
class Sink (κ : Type) where
  /-- Offers bytes. The answer is how many of them were taken, from the front. -/
  write : Bytes → κ → Poll (Except IoError Nat) × κ
  flush : κ → Poll (Except IoError Unit) × κ
  shutdown : κ → Poll (Except IoError Unit) × κ
  /-- A bound on the disturbances that the sink can still report. -/
  patience : κ → Nat
  taken_le : ∀ {bs : Bytes} {k k' : κ} {n : Nat},
    write bs k = (.ready (.ok n), k') → n ≤ bs.length
  patience_le : ∀ {bs : Bytes} {k k' : κ} {p : Poll (Except IoError Nat)},
    write bs k = (p, k') → patience k' ≤ patience k
  patience_lt_of_interrupted : ∀ {bs : Bytes} {k k' : κ} {e : IoError},
    write bs k = (.ready (.error e), k') → e.kind = .interrupted → patience k' < patience k

/-- Both ends of a transport. -/
class Transport (τ : Type) extends Source τ, Sink τ where
  /-- Whether whoever was told to wait is called back when there is more to do. -/
  callsBack : τ → Bool
  release : τ → τ

/-! ## Operations over several polls -/

inductive Progress (φ α : Type) where
  | waiting (rest : φ)
  | done (result : α)
  deriving DecidableEq, Repr

/-- Polls an operation until it is done, at most `n` times. -/
def drive {φ α ω : Type} (poll : φ → ω → Progress φ α × ω) : Nat → φ → ω → Progress φ α × ω
  | 0, f, w => (.waiting f, w)
  | n + 1, f, w =>
    match poll f w with
    | (.waiting f, w) => drive poll n f w
    | (.done a, w) => (.done a, w)

variable {σ : Type} [Source σ]

def readByte (s : σ) : Poll (Except IoError UInt8) × σ :=
  match _h : Source.read 1 s with
  | (.pending, s') => (.pending, s')
  | (.ready (.error e), s') =>
    if e.kind = .interrupted then readByte s' else (.ready (.error e), s')
  | (.ready (.ok []), s') => (.ready (.error (.ofKind .unexpectedEof)), s')
  | (.ready (.ok (b :: _)), s') => (.ready (.ok b), s')
termination_by Source.backlog s
decreasing_by exact Source.backlog_lt_of_error _h

/-- Reads until there are `want` bytes, of which `got` are there already. -/
def readExact (want : Nat) (got : Bytes) (s : σ) :
    Progress Bytes (Except IoError Bytes) × σ :=
  if want ≤ got.length then (.done (.ok got), s)
  else
    match _h : Source.read (want - got.length) s with
    | (.pending, s') => (.waiting got, s')
    | (.ready (.error e), s') =>
      if e.kind = .interrupted then readExact want got s' else (.done (.error e), s')
    | (.ready (.ok []), s') => (.done (.error (.ofKind .unexpectedEof)), s')
    | (.ready (.ok (b :: bs)), s') => readExact want (got ++ b :: bs) s'
termination_by Source.backlog s
decreasing_by
  · exact Source.backlog_lt_of_error _h
  · exact Source.backlog_lt_of_bytes _h

end PacketWire
