import PacketWire.Endpoint.Basic

/-!
# Scripted transports

A transport whose every answer is laid down beforehand. Its source plays `reads` one event a
poll, and its sink plays `writes`, `flushes` and `shutdowns`. What the sink went through is in
its log. A script calls nobody back.
-/

namespace PacketWire

/-- How a source answers one poll. -/
inductive ReadEvent where
  /-- Hands out these bytes, as many as there is room for; the rest stay for the next poll. -/
  | data (bytes : Bytes)
  | pending
  | endOfStream
  | fail (cause : IoError)
  deriving DecidableEq, Repr

def ReadEvent.size : ReadEvent → Nat
  | .data bs => bs.length
  | _ => 0

/-- How many answers an event is good for at most. -/
def ReadEvent.weight : ReadEvent → Nat
  | .data bs => bs.length + 1
  | _ => 1

/-- How a sink answers one write. -/
inductive WriteEvent where
  | accept (n : Nat)
  | pending
  | fail (cause : IoError)
  deriving DecidableEq, Repr

/-- How a sink answers one flush or shutdown. -/
inductive SettleEvent where
  | pending
  | fail (cause : IoError)
  deriving DecidableEq, Repr

/-- A call that reached a sink. -/
inductive SinkCall where
  | write (taken : Bytes)
  | flush
  | shutdown
  deriving DecidableEq, Repr

def SinkCall.bytes : SinkCall → Bytes
  | .write bs => bs
  | _ => []

structure Script where
  reads : List ReadEvent := []
  /-- Whether the source is never ready again after its last event, instead of at its end. -/
  stalls : Bool := false
  writes : List WriteEvent := []
  flushes : List SettleEvent := []
  shutdowns : List SettleEvent := []
  /-- What reached the sink, latest first. -/
  log : List SinkCall := []
  deriving DecidableEq, Repr

namespace Script

def calls (s : Script) : List SinkCall := s.log.reverse

/-- The bytes that the sink took. -/
def written (s : Script) : Bytes := (s.calls.map SinkCall.bytes).flatten

/-- How many bytes the source has not handed out. -/
def unread (s : Script) : Nat := (s.reads.map ReadEvent.size).foldr (· + ·) 0

/-! ## Source -/

def backlog (s : Script) : Nat := (s.reads.map ReadEvent.weight).foldr (· + ·) 0

def read (room : Nat) (s : Script) : Poll (Except IoError Bytes) × Script :=
  match s.reads with
  | [] => (if s.stalls then .pending else .ready (.ok []), s)
  | .pending :: es => (.pending, { s with reads := es })
  | .endOfStream :: es => (.ready (.ok []), { s with reads := es })
  | .fail e :: es => (.ready (.error e), { s with reads := es })
  | .data bs :: es =>
    let rest := if bs.length ≤ room then es else .data (bs.drop room) :: es
    (.ready (.ok (bs.take room)), { s with reads := rest })

theorem read_length_le {room : Nat} {s s' : Script} {bs : Bytes}
    (h : s.read room = (.ready (.ok bs), s')) : bs.length ≤ room := by
  unfold read at h
  split at h
  · split at h <;> simp at h
    simp [h.1]
  all_goals simp at h
  · simp [h.1]
  · rw [← h.1]
    exact List.length_take_le ..

theorem read_backlog_of_bytes {room : Nat} {s s' : Script} {b : UInt8} {bs : Bytes}
    (h : s.read room = (.ready (.ok (b :: bs)), s')) : s'.backlog < s.backlog := by
  unfold read at h
  split at h
  · split at h <;> simp at h
  all_goals simp at h
  rename_i data es hs
  obtain ⟨hd, rfl⟩ := h
  have hroom : 0 < room := by
    cases room with
    | zero => simp at hd
    | succ n => omega
  simp only [backlog, hs, List.map_cons, List.foldr_cons, ReadEvent.weight]
  split
  · omega
  · simp only [List.map_cons, List.foldr_cons, ReadEvent.weight, List.length_drop]; omega

theorem read_backlog_of_error {room : Nat} {s s' : Script} {e : IoError}
    (h : s.read room = (.ready (.error e), s')) : s'.backlog < s.backlog := by
  unfold read at h
  split at h
  · split at h <;> simp at h
  all_goals simp at h
  rename_i es hs
  obtain ⟨-, rfl⟩ := h
  simp [backlog, hs, ReadEvent.weight]

/-! ## Sink -/

def write (bs : Bytes) (s : Script) : Poll (Except IoError Nat) × Script :=
  match s.writes with
  | [] => (.ready (.ok bs.length), { s with log := .write bs :: s.log })
  | .accept n :: es =>
    (.ready (.ok (min n bs.length)), { s with writes := es, log := .write (bs.take n) :: s.log })
  | .pending :: es => (.pending, { s with writes := es })
  | .fail e :: es => (.ready (.error e), { s with writes := es })

def settle (events : List SettleEvent) : Poll (Except IoError Unit) × List SettleEvent :=
  match events with
  | [] => (.ready (.ok ()), [])
  | .pending :: es => (.pending, es)
  | .fail e :: es => (.ready (.error e), es)

def flush (s : Script) : Poll (Except IoError Unit) × Script :=
  let (answer, flushes) := settle s.flushes
  (answer, { s with flushes, log := .flush :: s.log })

def shutdown (s : Script) : Poll (Except IoError Unit) × Script :=
  let (answer, shutdowns) := settle s.shutdowns
  (answer, { s with shutdowns, log := .shutdown :: s.log })

theorem write_taken_le {bs : Bytes} {s s' : Script} {n : Nat}
    (h : s.write bs = (.ready (.ok n), s')) : n ≤ bs.length := by
  unfold write at h
  split at h <;> simp at h <;> omega

theorem write_patience_le {bs : Bytes} {s s' : Script} {p : Poll (Except IoError Nat)}
    (h : s.write bs = (p, s')) : s'.writes.length ≤ s.writes.length := by
  unfold write at h
  split at h <;> simp at h <;> obtain ⟨-, rfl⟩ := h <;> simp [*]

theorem write_patience_of_error {bs : Bytes} {s s' : Script} {e : IoError}
    (h : s.write bs = (.ready (.error e), s')) : s'.writes.length < s.writes.length := by
  unfold write at h
  split at h <;> simp at h
  obtain ⟨-, rfl⟩ := h
  simp [*]

instance : Transport Script where
  read := read
  backlog := backlog
  length_le := read_length_le
  backlog_lt_of_bytes := read_backlog_of_bytes
  backlog_lt_of_error := read_backlog_of_error
  write := write
  flush := flush
  shutdown := shutdown
  patience s := s.writes.length
  taken_le := write_taken_le
  patience_le := write_patience_le
  patience_lt_of_interrupted h _ := write_patience_of_error h
  callsBack _ := false
  release s := s

end Script

end PacketWire
