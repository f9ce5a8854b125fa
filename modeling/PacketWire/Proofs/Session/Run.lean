import PacketWire.Proofs.Endpoint.Recorded
import PacketWire.Proofs.Session.Writer

/-!
# Runs of a session

A `Move` is one thing that happens around a session: a sender offers a packet, a task is polled,
the owner switches, closes or lets go, or something moves at the far end of the transport. Moves
come in any order. A `Watched` session goes through them and keeps count of what was sent and
what was framed, each with the threshold in force at that moment.
-/

namespace PacketWire

/-- A packet and the threshold under which something happened to it. -/
structure Stamped where
  threshold : Int32
  packet : Outgoing
  deriving DecidableEq, Repr

/-- The same threshold for several packets. -/
def stamp (threshold : Int32) (ps : List Outgoing) : List Stamped :=
  ps.map fun packet => { threshold, packet }

def packets (xs : List Stamped) : List Outgoing := xs.map (·.packet)

theorem stamp_append (threshold : Int32) (ps qs : List Outgoing) :
    stamp threshold (ps ++ qs) = stamp threshold ps ++ stamp threshold qs :=
  List.map_append

theorem drop_stamp (n : Nat) (threshold : Int32) (ps : List Outgoing) :
    (stamp threshold ps).drop n = stamp threshold (ps.drop n) :=
  List.map_drop.symm

theorem drop_packets (n : Nat) (xs : List Stamped) :
    (packets xs).drop n = packets (xs.drop n) :=
  List.map_drop.symm

@[simp] theorem length_packets (xs : List Stamped) : (packets xs).length = xs.length :=
  List.length_map ..

@[simp] theorem packets_append (xs ys : List Stamped) :
    packets (xs ++ ys) = packets xs ++ packets ys :=
  List.map_append

@[simp] theorem packets_stamp (threshold : Int32) (ps : List Outgoing) :
    packets (stamp threshold ps) = ps := by
  simp [packets, stamp, Function.comp_def]

/-- The frames of packets, each under its own threshold. -/
def Codec.frames (c : Codec) (xs : List Stamped) : Bytes :=
  xs.flatMap fun x => (c.switch x.threshold).frameOf x.packet

structure Watched (τ : Type) where
  session : Session (Recorded τ)
  reserves : Reserves
  handles : Nat := 0
  /-- What was sent with success, under the thresholds in force then. -/
  sent : List Stamped := []
  /-- What the writer encoded, under the thresholds in force then. -/
  framed : List Stamped := []

/-- Who sends. -/
inductive Sender where
  | owner
  | handle
  deriving DecidableEq, Repr

inductive Move (τ : Type) where
  /-- A sender polls a send, for the first time or after it had to wait for room. -/
  | send (who : Sender) (waited : Bool) (p : Outgoing)
  | clone (who : Sender)
  | leave
  /-- The owner stops sending, as it does first in a shutdown. -/
  | stopSending
  | switchReader (threshold : Int32)
  | switchWriter (threshold : Int32)
  | switch (threshold : Int32)
  | receive
  | pump
  | writer
  | drain
  | shutDown
  | close
  | drop
  /-- Something happens at the far end of the transport and to the reserves. -/
  | elsewhere (act : τ → τ) (use : Reserves → Reserves)

namespace Move

variable {τ : Type}

/-- Whether the owner gives the session up without shutting it down. -/
def abandons : Move τ → Bool
  | .close | .drop => true
  | _ => false

def switchesWriter : Move τ → Bool
  | .switchWriter _ | .switch _ => true
  | _ => false

end Move

namespace Watched

variable {τ : Type} [Transport τ]

omit [Transport τ] in
def start (formats : Compression.Formats) (t : τ) (settings : Settings) (r : Reserves) :
    Watched τ :=
  let (session, reserves) := Session.start formats { inner := t } settings r
  { session, reserves }

omit [Transport τ] in
def threshold (w : Watched τ) : Int32 := w.session.outbox.codec.threshold

omit [Transport τ] in
def accepted (w : Watched τ) : Bytes := w.session.transport.accepted

omit [Transport τ] in
def has (w : Watched τ) : Sender → Bool
  | .owner => w.session.hasOutbound
  | .handle => 0 < w.handles

omit [Transport τ] in
/-- Polls a send. Only one that has not waited yet asks whether the session was cancelled. -/
def attempt (w : Watched τ) (who : Sender) (waited : Bool) (p : Outgoing) :
    Poll (Except WireError Unit) × Session (Recorded τ) :=
  if waited then w.session.enqueue p
  else
    match who with
    | .owner => w.session.send p
    | .handle => w.session.offer p

omit [Transport τ] in
def send (w : Watched τ) (who : Sender) (waited : Bool) (p : Outgoing) : Watched τ :=
  match w.attempt who waited p with
  | (.ready (.ok ()), session) => { w with session, sent := w.sent ++ stamp w.threshold [p] }
  | (_, session) => { w with session }

omit [Transport τ] in
def clone (w : Watched τ) : Sender → Watched τ
  | .owner =>
    let (made, session) := w.session.addSender
    { w with session, handles := w.handles + made.toNat }
  | .handle =>
    if 0 < w.handles then
      { w with session := w.session.cloneSender, handles := w.handles + 1 }
    else w

omit [Transport τ] in
theorem clone_eq (w : Watched τ) (who : Sender) :
    w.clone who =
      if w.has who then { w with session := w.session.cloneSender, handles := w.handles + 1 }
      else w := by
  cases who with
  | owner =>
    unfold clone has Session.addSender
    cases w.session.hasOutbound <;> rfl
  | handle => simp only [clone, has, decide_eq_true_eq]

def pollWriter (w : Watched τ) : Watched τ :=
  let (session, reserves) := w.session.pollWriter w.reserves
  { w with
    session, reserves,
    framed := w.framed ++ stamp w.threshold w.session.encoded }

def step (w : Watched τ) : Move τ → Watched τ
  | .send who waited p => if w.has who then w.send who waited p else w
  | .clone who => w.clone who
  | .leave =>
    if 0 < w.handles then
      { w with session := w.session.removeSender, handles := w.handles - 1 }
    else w
  | .stopSending => { w with session := w.session.dropOutbound }
  | .switchReader t => { w with session := w.session.switchReader t }
  | .switchWriter t => { w with session := w.session.switchWriter t }
  | .switch t => { w with session := w.session.switch t }
  | .receive =>
    let (_, session, reserves) := w.session.receive w.reserves
    { w with session, reserves }
  | .pump => { w with session := w.session.pollPump }
  | .writer => w.pollWriter
  | .drain => { w with session := w.session.pollDrain }
  | .shutDown =>
    let (_, session, reserves) := w.session.shutDown w.reserves
    { w with session, reserves }
  | .close =>
    let (session, reserves) := w.session.close w.reserves
    { w with session, reserves }
  | .drop =>
    let (session, reserves) := w.session.drop w.reserves
    { w with session, reserves }
  | .elsewhere act use =>
    let transport := { w.session.transport with inner := act w.session.transport.inner }
    { w with session := { w.session with transport }, reserves := use w.reserves }

def run (moves : List (Move τ)) (w : Watched τ) : Watched τ := moves.foldl step w

theorem run_append (moves more : List (Move τ)) (w : Watched τ) :
    run (moves ++ more) w = run more (run moves w) :=
  List.foldl_append

end Watched

end PacketWire
