import PacketWire.Session.Basic

/-!
# Background tasks

The pump, the writer and the drain of a session. Polling a task runs it until it has to wait or
comes to its end; no other task runs in between.
-/

namespace PacketWire.Session

variable {τ : Type} [Transport τ]

/-- Lets go of the transport once neither copy uses it. -/
def releaseTransport (s : Session τ) : Session τ :=
  if s.pump.isFinished && s.drain.isFinished then
    { s with transport := Transport.release s.transport }
  else s

/-- A copy that has to wait. One that waits for the transport is due again only if the transport
calls back. -/
def parked (c : Copy) (atTransport : Bool) (t : τ) : CopyTask :=
  .running c (!atTransport || Transport.callsBack t)

def pollPump (s : Session τ) : Session τ :=
  match s.pump with
  | .finished => s
  | .running c _ =>
    match c.poll s.cancelled s.transport s.inbound with
    | (.waiting c, transport, inbound) =>
      { s with transport, inbound, pump := parked c (c.phase = .reading) transport }
    | (.done result, transport, inbound) =>
      let s := { s with transport, inbound := inbound.close, pump := .finished }
      (s.ended result).releaseTransport

def pollDrain (s : Session τ) : Session τ :=
  match s.drain with
  | .finished => s
  | .running c _ =>
    match c.poll s.cancelled s.outbound s.transport with
    | (.waiting c, outbound, transport) =>
      { s with transport, outbound, drain := parked c (c.phase ≠ .reading) transport }
    | (.done result, outbound, transport) =>
      let s := { s with transport, outbound := outbound.close, drain := .finished }
      (s.ended result).releaseTransport

omit [Transport τ] in
/-- Ends the writer, and with it the queue and the outbound pipe. -/
def endWriter {α : Type} (result : Except WireError α) (s : Session τ) : Session τ :=
  let s := s.ended result
  { s with writer := .finished, queue := s.queue.close, outbound := s.outbound.close }

omit [Transport τ] in
/-- Hands over the last frames and shuts the outbound pipe down. -/
def pollClosing (c : Outbox.Close) (s : Session τ) : Session τ :=
  match c.poll s.outbox s.outbound with
  | (.waiting c, outbox, outbound) => { s with outbox, outbound, writer := .closing c }
  | (.done result, outbox, outbound) => { s with outbox, outbound }.endWriter result

/-- How far the writer is from waiting for a packet. -/
def WriterTask.rank : WriterTask → Nat
  | .flushing _ => 1
  | _ => 0

omit [Transport τ] in
/-- Takes every packet that is waiting, stages them and flushes once; and so on until the queue is
empty. -/
def pollWriter (s : Session τ) (r : Reserves) : Session τ × Reserves :=
  match _hw : s.writer with
  | .finished => (s, r)
  | .closing c => (s.pollClosing c, r)
  | .idle =>
    if s.cancelled then (s.endWriter (α := Unit) (.error .cancelled), r)
    else
      match _hq : s.queue.items with
      | [] =>
        if s.queue.senders = 0 then (s.pollClosing s.outbox.close, r) else (s, r)
      | p :: ps =>
        match s.outbox.stageAll r (p :: ps) with
        | (.error e, outbox, r) => ({ s with outbox }.endWriter (α := Unit) (.error e), r)
        | (.ok (), outbox, r) =>
          pollWriter
            { s with outbox, queue := { s.queue with items := [] },
                     writer := .flushing outbox.flush } r
  | .flushing f =>
    if s.cancelled then (s.endWriter (α := Unit) (.error .cancelled), r)
    else
      match f.poll s.outbox s.outbound with
      | (.waiting f, outbox, outbound) =>
        ({ s with outbox, outbound, writer := .flushing f }, r)
      | (.done (.error e), outbox, outbound) =>
        ({ s with outbox, outbound }.endWriter (α := Unit) (.error e), r)
      | (.done (.ok _), outbox, outbound) =>
        pollWriter { s with outbox, outbound, writer := .idle } r
termination_by 2 * s.queue.items.length + s.writer.rank
decreasing_by
  · simp only [_hq, List.length_nil, List.length_cons, WriterTask.rank]
    omega
  · simp [_hw, WriterTask.rank]

/-- Goes on with a shutdown: waits for the writer and the drain, closes, and waits for the
pump. -/
def shutDown (s : Session τ) (r : Reserves) :
    Poll (Except WireError Unit) × Session τ × Reserves :=
  if s.writer.isFinished && s.drain.isFinished then
    let (s, r) := s.close r
    if s.pump.isFinished then
      let result := match s.firstError with
        | none => .ok ()
        | some e => .error e
      (.ready result, s.drop r)
    else (.pending, s, r)
  else (.pending, s, r)

end PacketWire.Session
