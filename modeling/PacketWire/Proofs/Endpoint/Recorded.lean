import PacketWire.Endpoint.Pipe
import PacketWire.Endpoint.Script
import PacketWire.Endpoint.Writing

/-!
# What a sink has taken

`Recorded τ` is a transport that behaves as the one inside and writes down every call that
succeeded. `Keeps taken` says that `taken` reads off a sink which bytes it has taken: every write
adds what it took to the end, and one that fails or waits adds nothing. Whatever a sink does,
writing to the end then loses, repeats and reorders nothing.
-/

namespace PacketWire

structure Recorded (τ : Type) where
  inner : τ
  log : List SinkCall := []

namespace Recorded

variable {τ : Type}

def accepted (k : Recorded τ) : Bytes := k.log.flatMap SinkCall.bytes

def onInner {α : Type} (act : τ → α × τ) (k : Recorded τ) : α × Recorded τ :=
  let (answer, inner) := act k.inner
  (answer, { k with inner })

theorem onInner_eq {α : Type} {act : τ → α × τ} {k k' : Recorded τ} {a : α}
    (h : k.onInner act = (a, k')) : act k.inner = (a, k'.inner) ∧ k'.log = k.log := by
  cases h
  exact ⟨rfl, rfl⟩

/-- What the answer to a call adds to the log: the call, if it was granted. -/
def entry {α : Type} (call : α → SinkCall) : Poll (Except IoError α) → List SinkCall
  | .ready (.ok a) => [call a]
  | _ => []

/-- Makes a call on the transport inside, and writes it down if it was granted. -/
def granted {α : Type} (call : α → SinkCall) (act : τ → Poll (Except IoError α) × τ)
    (k : Recorded τ) : Poll (Except IoError α) × Recorded τ :=
  let (answer, inner) := act k.inner
  (answer, { inner, log := k.log ++ entry call answer })

theorem granted_eq {α : Type} {call : α → SinkCall} {act : τ → Poll (Except IoError α) × τ}
    {k k' : Recorded τ} {p : Poll (Except IoError α)} (h : k.granted call act = (p, k')) :
    act k.inner = (p, k'.inner) ∧ k'.log = k.log ++ entry call p := by
  cases h
  exact ⟨rfl, rfl⟩

variable [Transport τ]

def write (bs : Bytes) : Recorded τ → Poll (Except IoError Nat) × Recorded τ :=
  granted (fun n => .write (bs.take n)) (Sink.write bs)

def flush : Recorded τ → Poll (Except IoError Unit) × Recorded τ :=
  granted (fun _ => .flush) Sink.flush

def shutdown : Recorded τ → Poll (Except IoError Unit) × Recorded τ :=
  granted (fun _ => .shutdown) Sink.shutdown

instance : Transport (Recorded τ) where
  read room := onInner (Source.read room)
  backlog k := Source.backlog k.inner
  length_le h := Source.length_le (onInner_eq h).1
  backlog_lt_of_bytes h := Source.backlog_lt_of_bytes (onInner_eq h).1
  backlog_lt_of_error h := Source.backlog_lt_of_error (onInner_eq h).1
  write := write
  flush := flush
  shutdown := shutdown
  patience k := Sink.patience k.inner
  taken_le h := Sink.taken_le (granted_eq h).1
  patience_le h := Sink.patience_le (granted_eq h).1
  patience_lt_of_interrupted h := Sink.patience_lt_of_interrupted (granted_eq h).1
  callsBack k := Transport.callsBack k.inner
  release k := { k with inner := Transport.release k.inner }

end Recorded

/-! ## Taking bytes in -/

variable {κ : Type} [Sink κ]

/-- What every write keeps, writing to the end keeps. -/
theorem pushAll_preserves {Q : κ → Prop} (h : ∀ bs k, Q k → Q (Sink.write bs k).2) (bs : Bytes)
    (k : κ) (hk : Q k) : Q (pushAll bs k).2.2 := by
  fun_induction pushAll bs k with
  | case1 => exact hk
  | case2 bs k hb k' hw => simpa only [hw] using h bs k hk
  | case3 bs k hb e k' hw => simpa only [hw] using h bs k hk
  | case4 bs k hb k' hw => simpa only [hw] using h bs k hk
  | case5 bs k hb n k' hw ih => exact ih (by simpa only [hw] using h bs k hk)

theorem writeAll_preserves {Q : κ → Prop} (h : ∀ bs k, Q k → Q (Sink.write bs k).2) (bs : Bytes)
    (k : κ) (hk : Q k) : Q (writeAll bs k).2 := by
  fun_induction writeAll bs k with
  | case1 bs k rest k' hp => simpa only [hp] using pushAll_preserves h bs k hk
  | case2 bs k rest k' hp => simpa only [hp] using pushAll_preserves h bs k hk
  | case3 bs k e rest k' hp he ih => exact ih (by simpa only [hp] using pushAll_preserves h bs k hk)
  | case4 bs k e rest k' hp he => simpa only [hp] using pushAll_preserves h bs k hk

/-- Whether `taken` tells which bytes a sink has taken. -/
structure Keeps (taken : κ → Bytes) : Prop where
  ok : ∀ {bs : Bytes} {k k' : κ} {n : Nat},
    Sink.write bs k = (.ready (.ok n), k') → taken k' = taken k ++ bs.take n
  pending : ∀ {bs : Bytes} {k k' : κ}, Sink.write bs k = (.pending, k') → taken k' = taken k
  error : ∀ {bs : Bytes} {k k' : κ} {e : IoError},
    Sink.write bs k = (.ready (.error e), k') → taken k' = taken k

namespace Keeps

variable {taken : κ → Bytes}

/-- The sink takes the bytes from the front; nothing is left in the end. -/
theorem pushAll (h : Keeps taken) (bs : Bytes) (k : κ) {a : Poll (Except IoError Unit)}
    {rest : Bytes} {k' : κ} (hp : PacketWire.pushAll bs k = (a, rest, k')) :
    (∃ front, front ++ rest = bs ∧ taken k' = taken k ++ front) ∧
      (a = .ready (.ok ()) ↔ rest = []) := by
  fun_induction PacketWire.pushAll bs k with
  | case1 bs k hb =>
    cases hp
    exact ⟨⟨[], rfl, (List.append_nil _).symm⟩, by simpa using hb⟩
  | case2 bs k hb k1 hw =>
    cases hp
    exact ⟨⟨[], rfl, by rw [h.pending hw, List.append_nil]⟩, by simpa using hb⟩
  | case3 bs k hb e k1 hw =>
    cases hp
    exact ⟨⟨[], rfl, by rw [h.error hw, List.append_nil]⟩, by simpa using hb⟩
  | case4 bs k hb k1 hw =>
    cases hp
    exact ⟨⟨[], rfl, by rw [h.ok hw, List.take_zero]⟩, by simpa using hb⟩
  | case5 bs k hb n k1 hw ih =>
    obtain ⟨⟨front, hsum, htaken⟩, hdone⟩ := ih hp
    refine ⟨⟨bs.take (n + 1) ++ front, ?_, ?_⟩, hdone⟩
    · rw [List.append_assoc, hsum, List.take_append_drop]
    · rw [htaken, h.ok hw, List.append_assoc]

/-- How far writing `whole` has come when the sink has taken `now`. -/
def Wrote (whole now : Bytes) : Progress Bytes (Except IoError Unit) → Prop
  | .waiting rest => now ++ rest = whole
  | .done (.ok ()) => now = whole
  | .done (.error _) => now <+: whole

theorem writeAll (h : Keeps taken) (bs : Bytes) (k : κ) :
    Wrote (taken k ++ bs) (taken (PacketWire.writeAll bs k).2) (PacketWire.writeAll bs k).1 := by
  fun_induction PacketWire.writeAll bs k with
  | case1 bs k rest k' hp =>
    obtain ⟨⟨front, hsum, htaken⟩, -⟩ := h.pushAll bs k hp
    rw [Wrote, htaken, List.append_assoc, hsum]
  | case2 bs k rest k' hp =>
    obtain ⟨⟨front, hsum, htaken⟩, hdone⟩ := h.pushAll bs k hp
    rw [hdone.mp rfl, List.append_nil] at hsum
    rw [Wrote, htaken, hsum]
  | case3 bs k e rest k' hp hk ih =>
    obtain ⟨⟨front, hsum, htaken⟩, -⟩ := h.pushAll bs k hp
    rw [htaken, List.append_assoc, hsum] at ih
    exact ih
  | case4 bs k e rest k' hp hk =>
    obtain ⟨⟨front, hsum, htaken⟩, -⟩ := h.pushAll bs k hp
    exact ⟨rest, by rw [htaken, List.append_assoc, hsum]⟩

/-- What an answer of `writeAll` says of the bytes that are left. -/
def Leaves (left : Bytes) : Progress Bytes (Except IoError Unit) → Prop
  | .waiting rest => left = rest ∧ left ≠ []
  | .done (.ok ()) => left = []
  | .done (.error _) => left ≠ []

theorem leaves_writeAll (h : Keeps taken) (bs : Bytes) (k : κ) :
    ∃ front left, front ++ left = bs ∧ taken (PacketWire.writeAll bs k).2 = taken k ++ front ∧
      Leaves left (PacketWire.writeAll bs k).1 := by
  fun_induction PacketWire.writeAll bs k with
  | case1 bs k rest k' hp =>
    obtain ⟨⟨front, hsum, htaken⟩, hdone⟩ := h.pushAll bs k hp
    exact ⟨front, rest, hsum, htaken, rfl, fun hrest => by simpa using hdone.mpr hrest⟩
  | case2 bs k rest k' hp =>
    obtain ⟨⟨front, hsum, htaken⟩, hdone⟩ := h.pushAll bs k hp
    exact ⟨front, rest, hsum, htaken, hdone.mp rfl⟩
  | case3 bs k e rest k' hp hk ih =>
    obtain ⟨⟨front, hsum, htaken⟩, -⟩ := h.pushAll bs k hp
    obtain ⟨front', left, hsum', htaken', hleaves⟩ := ih
    refine ⟨front ++ front', left, ?_, ?_, hleaves⟩
    · rw [List.append_assoc, hsum', hsum]
    · rw [htaken', htaken, List.append_assoc]
  | case4 bs k e rest k' hp hk =>
    obtain ⟨⟨front, hsum, htaken⟩, hdone⟩ := h.pushAll bs k hp
    exact ⟨front, rest, hsum, htaken, fun hrest => by simpa using hdone.mpr hrest⟩

end Keeps

/-! ## Sinks that can be told -/

namespace Recorded

variable {τ : Type} [Transport τ]

theorem accepted_write {bs : Bytes} {k k' : Recorded τ} {p : Poll (Except IoError Nat)}
    (h : Sink.write bs k = (p, k')) :
    k'.accepted = k.accepted ++ (entry (fun n => .write (bs.take n)) p).flatMap SinkCall.bytes := by
  rw [accepted, (granted_eq h).2, List.flatMap_append, accepted]

theorem log_flush {k k' : Recorded τ} {p : Poll (Except IoError Unit)}
    (h : Sink.flush k = (p, k')) : k'.log = k.log ++ entry (fun _ => .flush) p :=
  (granted_eq h).2

theorem log_shutdown {k k' : Recorded τ} {p : Poll (Except IoError Unit)}
    (h : Sink.shutdown k = (p, k')) : k'.log = k.log ++ entry (fun _ => .shutdown) p :=
  (granted_eq h).2

omit [Transport τ] in
theorem accepted_of_log {k k' : Recorded τ} {call : SinkCall} (hcall : call.bytes = [])
    {p : Poll (Except IoError Unit)} (h : k'.log = k.log ++ entry (fun _ => call) p) :
    k'.accepted = k.accepted := by
  rw [accepted, h, List.flatMap_append, accepted]
  obtain _ | _ | _ := p <;> simp [entry, hcall]

theorem accepted_flush {k k' : Recorded τ} {p : Poll (Except IoError Unit)}
    (h : Sink.flush k = (p, k')) : k'.accepted = k.accepted :=
  accepted_of_log rfl (log_flush h)

theorem accepted_shutdown {k k' : Recorded τ} {p : Poll (Except IoError Unit)}
    (h : Sink.shutdown k = (p, k')) : k'.accepted = k.accepted :=
  accepted_of_log rfl (log_shutdown h)

theorem keeps_accepted : Keeps (accepted : Recorded τ → Bytes) where
  ok h := by simp [accepted_write h, entry, SinkCall.bytes]
  pending h := by simp [accepted_write h, entry]
  error h := by simp [accepted_write h, entry]

end Recorded

namespace Pipe

/-! ### Pipes -/

theorem held_ofCapacity (c : Capacity) : (ofCapacity c).held = [] := by
  cases c <;> rfl

theorem closed_ofCapacity (c : Capacity) : (ofCapacity c).closed = false := by
  cases c <;> rfl

theorem limit_ofCapacity (c : Capacity) : (ofCapacity c).limit ≠ some 0 := by
  cases c with
  | unbounded => simp [ofCapacity]
  | bounded n =>
    simp only [ofCapacity, ne_eq, Option.some.injEq]
    omega

/-- All that a write can do to a pipe. -/
inductive Written (bs : Bytes) (p : Pipe) : Poll (Except IoError Nat) × Pipe → Prop where
  | refused (e : IoError) : Written bs p (.ready (.error e), p)
  | full (holds : p.limit ≠ some 0 → p.held ≠ []) : Written bs p (.pending, p)
  | took (n : Nat) (p' : Pipe) (held : p'.held = p.held ++ bs.take n)
      (closed : p'.closed = p.closed) (limit : p'.limit = p.limit) :
      Written bs p (.ready (.ok n), p')

theorem held_of_no_room {p : Pipe} {n : Nat} (hn : n ≠ 0) (h : p.room n = 0)
    (hl : p.limit ≠ some 0) : p.held ≠ [] := by
  intro hheld
  unfold room at h
  split at h
  · exact hn h
  · rename_i most hlimit
    have hmost : most ≠ 0 := fun h0 => hl (h0 ▸ hlimit)
    rw [hheld, List.length_nil] at h
    omega

theorem written_write (bs : Bytes) (p : Pipe) : Written bs p (Sink.write bs p) := by
  show Written bs p (p.write bs)
  unfold write
  split
  · exact .refused _
  · split
    · rename_i hb
      rw [List.isEmpty_iff.mp hb]
      exact .took 0 p (List.append_nil _).symm rfl rfl
    · rename_i hb
      simp only
      split
      · rename_i hroom
        exact .full (held_of_no_room (by simpa using hb) hroom)
      · exact .took _ _ rfl rfl rfl

theorem keeps_held : Keeps held where
  ok {bs p p' n} h := by
    cases h ▸ written_write bs p with
    | took _ _ held => exact held
  pending {bs p p'} h := by
    cases h ▸ written_write bs p with
    | full => rfl
  error {bs p p' e} h := by
    cases h ▸ written_write bs p with
    | refused => rfl

theorem closed_write (bs : Bytes) (p : Pipe) : (Sink.write bs p).2.closed = p.closed := by
  have hw := written_write bs p
  generalize Sink.write bs p = answer at hw
  cases hw with
  | refused => rfl
  | full => rfl
  | took n p' held closed limit => exact closed

theorem limit_write (bs : Bytes) (p : Pipe) : (Sink.write bs p).2.limit = p.limit := by
  have hw := written_write bs p
  generalize Sink.write bs p = answer at hw
  cases hw with
  | refused => rfl
  | full => rfl
  | took n p' held closed limit => exact limit

theorem closed_writeAll (bs : Bytes) (p : Pipe) : (writeAll bs p).2.closed = p.closed :=
  writeAll_preserves (Q := fun q => q.closed = p.closed)
    (fun bs q hq => (closed_write bs q).trans hq) bs p rfl

theorem limit_writeAll (bs : Bytes) (p : Pipe) : (writeAll bs p).2.limit = p.limit :=
  writeAll_preserves (Q := fun q => q.limit = p.limit)
    (fun bs q hq => (limit_write bs q).trans hq) bs p rfl

/-- A pipe that makes its writer wait has something for its reader. -/
theorem held_of_pushAll_pending {bs rest : Bytes} {p p' : Pipe} (hl : p.limit ≠ some 0)
    (h : pushAll bs p = (.pending, rest, p')) : p'.held ≠ [] := by
  fun_induction pushAll bs p with
  | case1 => cases h
  | case2 bs p hb q hw =>
    cases h
    cases hw ▸ written_write rest p with
    | full holds => exact holds hl
  | case3 => cases h
  | case4 => cases h
  | case5 bs p hb n q hw ih =>
    have hlimit := limit_write bs p
    rw [hw] at hlimit
    exact ih (hlimit ▸ hl) h

theorem held_of_writeAll_waiting {bs rest : Bytes} {p p' : Pipe} (hl : p.limit ≠ some 0)
    (h : writeAll bs p = (.waiting rest, p')) : p'.held ≠ [] := by
  fun_induction writeAll bs p with
  | case1 bs p left q hp =>
    cases h
    exact held_of_pushAll_pending hl hp
  | case2 => cases h
  | case3 bs p e left q hp hk ih =>
    have hlimit := pushAll_preserves (Q := fun q => q.limit = p.limit)
      (fun bs q hq => (limit_write bs q).trans hq) bs p rfl
    rw [hp] at hlimit
    exact ih (hlimit ▸ hl) h
  | case4 => cases h

end Pipe

end PacketWire
