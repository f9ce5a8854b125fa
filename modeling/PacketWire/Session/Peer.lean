import PacketWire.Session.Schedule

/-!
# The other end of a session

What a peer does at the other end of an in-memory line: `peerWrite` and `peerRead` go on for as
long as the tasks of the session make room or bring bytes. How the peer reaches its end is a
parameter.
-/

namespace PacketWire.Session

variable {τ : Type} [Transport τ]

/-- How the peer acts on its end of the line. -/
abbrev Reach (τ : Type) :=
  (Duplex → Poll (Except IoError Bytes) × Duplex) → τ → Poll (Except IoError Bytes) × τ

/-- Polls the peer's end, and once more after all tasks had their turns. -/
def pollPeer (reach : Reach τ) (turns : Nat)
    (act : Duplex → Poll (Except IoError Bytes) × Duplex) (s : Session τ) (r : Reserves) :
    Poll (Except IoError Bytes) × Session τ × Reserves :=
  await (fun s r =>
    let (answer, transport) := reach act s.transport
    (answer, { s with transport }, r)) (fun _ => false) turns 2 s r

def writeSome (bs : Bytes) (d : Duplex) : Poll (Except IoError Bytes) × Duplex :=
  match Sink.write bs d with
  | (.pending, d) => (.pending, d)
  | (.ready (.ok n), d) => (.ready (.ok (bs.take n)), d)
  | (.ready (.error e), d) => (.ready (.error e), d)

/-- Writes as much of `bs` as gets through, behind the `done` bytes before, and says what stopped
the peer. -/
def peerWrite (reach : Reach τ) (turns : Nat) :
    Nat → Bytes → Nat → Session τ → Reserves →
      (Nat × Option (Poll IoError)) × Session τ × Reserves
  | 0, _, done, s, r => ((done, none), s, r)
  | fuel + 1, bs, done, s, r =>
    if bs.isEmpty then ((done, none), s, r)
    else
      match s.pollPeer reach turns (writeSome bs) r with
      | (.pending, s, r) => ((done, some .pending), s, r)
      | (.ready (.error e), s, r) => ((done, some (.ready e)), s, r)
      | (.ready (.ok taken), s, r) =>
        peerWrite reach turns fuel (bs.drop taken.length) (done + taken.length) s r

/-- Reads at most `most` bytes, behind those in `got`, and whether the stream has ended. -/
def peerRead (reach : Reach τ) (turns most : Nat) :
    Nat → Bytes → Session τ → Reserves → (Bytes × Bool) × Session τ × Reserves
  | 0, got, s, r => ((got, false), s, r)
  | fuel + 1, got, s, r =>
    if most ≤ got.length then ((got, false), s, r)
    else
      match s.pollPeer reach turns (Source.read (most - got.length)) r with
      | (.ready (.ok []), s, r) => ((got, true), s, r)
      | (.ready (.ok (b :: bs)), s, r) => peerRead reach turns most fuel (got ++ b :: bs) s r
      | (_, s, r) => ((got, false), s, r)

end PacketWire.Session
