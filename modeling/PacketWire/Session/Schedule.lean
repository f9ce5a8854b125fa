import PacketWire.Session.Tasks

/-!
# Running a session

One order of polling the tasks of a session: `settle` gives each task its turn until all of them
wait for something outside, and `await` does so between the polls of an operation. Both take a
bound on the number of turns.
-/

namespace PacketWire.Session

variable {τ : Type} [Transport τ]

/-- One turn of every task that is due. -/
def turn (s : Session τ) (r : Reserves) : Session τ × Reserves :=
  let s := if s.pump.isDue then s.pollPump else s
  let (s, r) := s.pollWriter r
  (if s.drain.isDue then s.pollDrain else s, r)

def finishedTasks (s : Session τ) : Nat :=
  s.pump.isFinished.toNat + s.writer.isFinished.toNat + s.drain.isFinished.toNat

def CopyTask.isReading : CopyTask → Bool
  | .running c _ => c.phase = .reading
  | .finished => false

/-- Whether a turn leaves something to do: it ended a task, or made room for a writer that has
more. -/
def stirred (before after : Session τ) : Bool :=
  before.finishedTasks ≠ after.finishedTasks || before.cancelled ≠ after.cancelled ||
    (after.writer.isBusy && after.drain.isReading)

/-- Runs the tasks until all of them wait, for at most `turns` turns. -/
def settle : Nat → Session τ → Reserves → Session τ × Reserves
  | 0, s, r => (s, r)
  | turns + 1, s, r =>
    let (s', r) := s.turn r
    if stirred s s' then settle turns s' r else (s', r)

/-- Polls an operation, letting the tasks run in between, until it is ready or `stuck` says that
it waits in vain. -/
def await {α : Type} (act : Session τ → Reserves → Poll α × Session τ × Reserves)
    (stuck : Session τ → Bool) (turns : Nat) :
    Nat → Session τ → Reserves → Poll α × Session τ × Reserves
  | 0, s, r => (.pending, s, r)
  | n + 1, s, r =>
    match act s r with
    | (.ready a, s, r) => (.ready a, s, r)
    | (.pending, s, r) =>
      let (s, r) := s.settle turns r
      if stuck s then (.pending, s, r) else await act stuck turns n s r

def inboundQuiet (s : Session τ) : Bool :=
  s.inbound.held.isEmpty && !s.inbound.closed && !s.cancelled

/-- Receives the next packet, unless nothing that is under way brings it. -/
def awaitPacket (turns : Nat) (s : Session τ) (r : Reserves) :
    Poll (Except WireError Packet) × Session τ × Reserves :=
  await receive inboundQuiet turns turns s r

/-- Sends a packet as the owner or, if `asOwner` is false, as another sender. -/
def awaitSend (turns : Nat) (asOwner : Bool) (p : Outgoing) (s : Session τ) (r : Reserves) :
    Poll (Except WireError Unit) × Session τ × Reserves :=
  let act : Session τ → Reserves → Poll (Except WireError Unit) × Session τ × Reserves :=
    fun s r =>
      let (answer, s) := if asOwner then s.send p else s.offer p
      (answer, s, r)
  await act (fun s => s.queue.receiving && s.queue.isFull) turns 2 s r

/-- Sends packets as the owner up to the first that is not taken, with the answer for the last
one. -/
def awaitBurst (turns : Nat) :
    List Outgoing → Nat → Session τ → Reserves →
      (Nat × Poll (Except WireError Unit)) × Session τ × Reserves
  | [], n, s, r => ((n, .ready (.ok ())), s, r)
  | p :: ps, n, s, r =>
    match s.awaitSend turns true p r with
    | (.ready (.ok ()), s, r) => awaitBurst turns ps (n + 1) s r
    | (answer, s, r) => ((n, answer), s, r)

/-- Sends everything that is queued and stops. A shutdown that waits in vain is given up, and
the session with it. -/
def awaitShutdown (turns : Nat) (s : Session τ) (r : Reserves) :
    Poll (Except WireError Unit) × Session τ × Reserves :=
  match await shutDown (fun _ => false) turns 3 s.dropOutbound r with
  | (.ready result, s, r) => (.ready result, s, r)
  | (.pending, s, r) =>
    let (s, r) := s.drop r
    (.pending, s.settle turns r)

end PacketWire.Session
