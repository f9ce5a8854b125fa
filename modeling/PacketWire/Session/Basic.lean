import PacketWire.Inbox
import PacketWire.Outbox
import PacketWire.Endpoint.Pipe
import PacketWire.Endpoint.Copy
import PacketWire.Settings.Basic

/-!
# Sessions

A session runs packets over one transport. A pump copies the transport into the inbound pipe,
from which the owner receives; a writer takes packets off the send queue, stages their frames
and flushes them into the outbound pipe; and a drain copies that pipe onto the transport. The
first error of any side is kept, and cancels all of them.
-/

namespace PacketWire

/-- Packets on their way from the senders to the writer, first in first out. -/
structure Queue where
  items : List Outgoing := []
  /-- Most packets that wait; `none` is no limit. -/
  limit : Option Nat := none
  /-- How many senders there are. -/
  senders : Nat := 1
  /-- Whether there is still someone to take the packets. -/
  receiving : Bool := true
  deriving DecidableEq, Repr

namespace Queue

/-- An empty queue with one sender. A limited one holds a packet at least. -/
def ofLimit (limit : Option Nat) : Queue := { limit := limit.map (max · 1) }

def isFull (q : Queue) : Bool :=
  match q.limit with
  | none => false
  | some most => most ≤ q.items.length

/-- Offers a packet. The answer says whether there was someone to take it. -/
def offer (p : Outgoing) (q : Queue) : Option Bool × Queue :=
  if !q.receiving then (some false, q)
  else if q.isFull then (none, q)
  else (some true, { q with items := q.items ++ [p] })

def join (q : Queue) : Queue := { q with senders := q.senders + 1 }

def leave (q : Queue) : Queue := { q with senders := q.senders - 1 }

/-- The receiver goes, and with it what was waiting. -/
def close (q : Queue) : Queue := { q with items := [], receiving := false }

end Queue

/-- A copy that runs in the background. -/
inductive Session.CopyTask where
  /-- `due` says whether the copy is to be polled when its turn comes. -/
  | running (copy : Copy) (due : Bool)
  | finished
  deriving DecidableEq, Repr

inductive Session.WriterTask where
  | idle
  | flushing (flush : Outbox.Flush)
  | closing (close : Outbox.Close)
  | finished
  deriving DecidableEq, Repr

structure Session (τ : Type) where
  transport : τ
  inbound : Pipe
  outbound : Pipe
  queue : Queue
  inbox : Inbox
  outbox : Outbox
  pump : Session.CopyTask
  writer : Session.WriterTask := .idle
  drain : Session.CopyTask
  cancelled : Bool := false
  firstError : Option WireError := none
  /-- Whether the owner has closed it. -/
  closed : Bool := false
  hasOutbound : Bool := true

namespace Session

variable {τ : Type}

/-! ## Tasks -/

namespace CopyTask

def isFinished : CopyTask → Bool
  | .running .. => false
  | .finished => true

def isDue : CopyTask → Bool
  | .running _ due => due
  | .finished => false

/-- What cancelling makes of a copy: it is polled once more, unless it is closing, where it does
not listen. -/
def wake : CopyTask → CopyTask
  | .running c due => .running c (due || c.phase ≠ .closing)
  | .finished => .finished

end CopyTask

namespace WriterTask

def isFinished : WriterTask → Bool
  | .finished => true
  | _ => false

def isBusy : WriterTask → Bool
  | .flushing _ | .closing _ => true
  | _ => false

end WriterTask

/-! ## Life of a session -/

/-- A new session. Both directions start with the same threshold. -/
def start (formats : Compression.Formats) (t : τ) (settings : Settings) (r : Reserves) :
    Session τ × Reserves :=
  let codec := settings.codec.build formats
  let chunk := settings.pipe.chunk
  ({ transport := t,
     inbound := .ofCapacity settings.pipe.inbound,
     outbound := .ofCapacity settings.pipe.outbound,
     queue := .ofLimit settings.pipe.sendQueue,
     inbox := { codec, chunk },
     outbox := { codec },
     pump := .running { chunk } true,
     drain := .running { chunk } true },
   r.count (·.connectionEstablished))

def cancel (s : Session τ) : Session τ :=
  { s with cancelled := true, pump := s.pump.wake, drain := s.drain.wake }

/-- Records an error, if it is the first one, and stops everything. Being told to stop is no
error. -/
def fail (e : WireError) (s : Session τ) : Session τ :=
  cancel (if e = .cancelled ∨ s.firstError.isSome then s else { s with firstError := some e })

/-- What is reported once the session is over. -/
def terminalError (s : Session τ) : WireError := s.firstError.getD .connectionClosed

def isClosed (s : Session τ) : Bool := s.closed || s.cancelled

/-- Takes note of how a task ended. -/
def ended {α : Type} (result : Except WireError α) (s : Session τ) : Session τ :=
  match result with
  | .ok _ => s
  | .error e => s.fail e

def switchReader (threshold : Int32) (s : Session τ) : Session τ :=
  { s with inbox := s.inbox.switch threshold }

def switchWriter (threshold : Int32) (s : Session τ) : Session τ :=
  { s with outbox := s.outbox.switch threshold }

/-- Switches both directions, as when the peer announces a threshold. -/
def switch (threshold : Int32) (s : Session τ) : Session τ :=
  (s.switchReader threshold).switchWriter threshold

/-- Closes the session. Closing it again changes nothing. -/
def close (s : Session τ) (r : Reserves) : Session τ × Reserves :=
  if s.closed then (s, r)
  else (cancel { s with closed := true }, r.count (·.connectionClosed))

def dropOutbound (s : Session τ) : Session τ :=
  if s.hasOutbound then { s with hasOutbound := false, queue := s.queue.leave } else s

def cloneSender (s : Session τ) : Session τ := { s with queue := s.queue.join }

/-- One more sender besides the owner, while the owner sends. -/
def addSender (s : Session τ) : Bool × Session τ :=
  if s.hasOutbound then (true, s.cloneSender) else (false, s)

def removeSender (s : Session τ) : Session τ := { s with queue := s.queue.leave }

/-- The owner lets go of the session. Its tasks come to their end on their own. -/
def drop (s : Session τ) (r : Reserves) : Session τ × Reserves :=
  let (s, r) := s.close r
  let s := s.dropOutbound
  ({ s with inbound := s.inbound.close }, r)

/-! ## Sending and receiving -/

/-- Asks for the next packet. -/
def receive (s : Session τ) (r : Reserves) :
    Poll (Except WireError Packet) × Session τ × Reserves :=
  let a := s.inbox.poll s.cancelled s.inbound r
  let s := { s with inbox := a.inbox, inbound := a.source }
  match a.next with
  | .pending => (.pending, s, a.reserves)
  | .ready (some (.ok p)) => (.ready (.ok p), s, a.reserves)
  | .ready (some (.error e)) => (.ready (.error e), s.fail e, a.reserves)
  | .ready none => (.ready (.error s.terminalError), s, a.reserves)

/-- Puts a packet into the queue, if there is room. A sender that had to wait is not told of a
cancelled session before the queue is gone. -/
def enqueue (p : Outgoing) (s : Session τ) : Poll (Except WireError Unit) × Session τ :=
  match s.queue.offer p with
  | (none, _) => (.pending, s)
  | (some true, queue) => (.ready (.ok ()), { s with queue })
  | (some false, _) => (.ready (.error s.terminalError), s)

/-- Offers a packet to the writer, on behalf of any sender. -/
def offer (p : Outgoing) (s : Session τ) : Poll (Except WireError Unit) × Session τ :=
  if s.cancelled then (.ready (.error s.terminalError), s) else s.enqueue p

/-- Sends a packet as the owner. -/
def send (p : Outgoing) (s : Session τ) : Poll (Except WireError Unit) × Session τ :=
  if s.hasOutbound then s.offer p else (.ready (.error s.terminalError), s)

end Session

end PacketWire
