import PacketWire.FrameWrite

/-!
# Staged frames

An `Outbox` encodes frames into memory and hands everything staged to a sink at once. The staged
bytes are dropped when the sink has taken all of them, and stay when it fails or the flush is
given up.
-/

namespace PacketWire

structure Outbox where
  codec : Codec
  staged : Bytes := []

namespace Outbox

variable {κ : Type} [Sink κ]

def switch (o : Outbox) (threshold : Int32) : Outbox :=
  { o with codec := o.codec.switch threshold }

/-- Encodes an item behind what is staged. -/
def stage (o : Outbox) (item : Codec.Item) (r : Reserves) :
    Except WireError Unit × Outbox × Reserves :=
  let e := o.codec.putItem o.staged r item
  (e.result.map fun _ => (), { o with staged := e.out }, e.reserves)

/-- Encodes packets one after another, up to the first that is refused. -/
def stageAll (o : Outbox) (r : Reserves) : List Outgoing → Except WireError Unit × Outbox × Reserves
  | [] => (.ok (), o, r)
  | p :: ps =>
    match o.stage (.packet p) r with
    | (.ok (), o, r) => stageAll o r ps
    | (.error e, o, r) => (.error e, o, r)

/-- A flush of `length` staged bytes. -/
inductive Flush where
  | writing (length : Nat) (rest : Bytes)
  | flushing (length : Nat)
  deriving DecidableEq, Repr

/-- A flush of everything that is staged now. -/
def flush (o : Outbox) : Flush :=
  if o.staged.isEmpty then .flushing 0 else .writing o.staged.length o.staged

def Flush.settle (length : Nat) (o : Outbox) (k : κ) :
    Progress Flush (Except WireError Nat) × Outbox × κ :=
  match flushSink k with
  | (.waiting (), k) => (.waiting (.flushing length), o, k)
  | (.done (.error e), k) => (.done (.error e), o, k)
  | (.done (.ok ()), k) => (.done (.ok length), o, k)

/-- Flushes on. The result is the number of bytes handed over. -/
def Flush.poll (f : Flush) (o : Outbox) (k : κ) :
    Progress Flush (Except WireError Nat) × Outbox × κ :=
  match f with
  | .flushing length => settle length o k
  | .writing length rest =>
    match writeAll rest k with
    | (.waiting rest, k) => (.waiting (.writing length rest), o, k)
    | (.done (.error e), k) => (.done (.error (.io e)), o, k)
    | (.done (.ok ()), k) => settle length { o with staged := [] } k

/-- A flush followed by a shutdown of the sink. -/
inductive Close where
  | flushing (flush : Flush)
  | shuttingDown
  deriving DecidableEq, Repr

def close (o : Outbox) : Close := .flushing o.flush

def Close.shutDown (o : Outbox) (k : κ) :
    Progress Close (Except WireError Unit) × Outbox × κ :=
  match Sink.shutdown k with
  | (.pending, k) => (.waiting .shuttingDown, o, k)
  | (.ready (.error e), k) => (.done (.error (.io e)), o, k)
  | (.ready (.ok ()), k) => (.done (.ok ()), o, k)

def Close.poll (c : Close) (o : Outbox) (k : κ) :
    Progress Close (Except WireError Unit) × Outbox × κ :=
  match c with
  | .shuttingDown => shutDown o k
  | .flushing f =>
    match f.poll o k with
    | (.waiting f, o, k) => (.waiting (.flushing f), o, k)
    | (.done (.error e), o, k) => (.done (.error e), o, k)
    | (.done (.ok _), o, k) => shutDown o k

end Outbox

end PacketWire
