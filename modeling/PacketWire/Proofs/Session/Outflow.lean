import PacketWire.Proofs.Endpoint.Copy
import PacketWire.Proofs.Session.Run

/-!
# The way out of a session

`outflow` is what packets pass on their way out: the queue, the staged frames, the writer, the
outbound pipe, the drain and what the transport took. Only four things change it: a send, a
switch of the writer, and polls of the writer and of the drain. All else that a session does is
`Aside` from it.
-/

namespace PacketWire

structure Outflow where
  waiting : List Outgoing
  receiving : Bool
  outbox : Outbox
  writer : Session.WriterTask
  outbound : Pipe
  drain : Option Copy
  log : List SinkCall

namespace Outflow

/-- The bytes that the transport took. -/
def accepted (o : Outflow) : Bytes := o.log.flatMap SinkCall.bytes

/-- The bytes of frames that are still on their way to the transport; none without a drain. -/
def underway (o : Outflow) : Bytes :=
  match o.drain with
  | none => []
  | some c => c.rest ++ o.outbound.held ++ o.writer.rest

end Outflow

namespace Session

def CopyTask.copy : CopyTask → Option Copy
  | .running c _ => some c
  | .finished => none

@[simp] theorem CopyTask.copy_wake (t : CopyTask) : t.wake.copy = t.copy := by
  cases t <;> rfl

theorem CopyTask.isFinished_iff {t : CopyTask} : t.isFinished = true ↔ t.copy = none := by
  cases t <;> simp [isFinished, copy]

variable {τ : Type}

def outflow (s : Session (Recorded τ)) : Outflow where
  waiting := s.queue.items
  receiving := s.queue.receiving
  outbox := s.outbox
  writer := s.writer
  outbound := s.outbound
  drain := s.drain.copy
  log := s.transport.log

/-- `s'` differs from `s` in nothing that is on the way out, and forgets neither an error nor a
sender. -/
structure Aside (s s' : Session (Recorded τ)) : Prop where
  outflow : s'.outflow = s.outflow
  firstError : s'.firstError = none → s.firstError = none
  senders : ∀ n, s.queue.senders = n + s.hasOutbound.toNat →
    s'.queue.senders = n + s'.hasOutbound.toNat
  hasOutbound : s'.hasOutbound = true → s.hasOutbound = true

namespace Aside

variable {s s' s'' : Session (Recorded τ)}

theorem refl (s : Session (Recorded τ)) : Aside s s := ⟨rfl, id, fun _ => id, id⟩

theorem trans (h : Aside s s') (h' : Aside s' s'') : Aside s s'' where
  outflow := h'.outflow.trans h.outflow
  firstError := h.firstError ∘ h'.firstError
  senders n := h'.senders n ∘ h.senders n
  hasOutbound := h.hasOutbound ∘ h'.hasOutbound

end Aside

theorem aside_cancel (s : Session (Recorded τ)) : Aside s s.cancel :=
  ⟨by simp [Session.outflow, cancel], id, fun _ => id, id⟩

theorem aside_fail (e : WireError) (s : Session (Recorded τ)) : Aside s (s.fail e) := by
  rw [fail_eq]
  exact ⟨by simp [Session.outflow], fun h => (noted_eq_none_iff.mp h).2, fun _ => id, id⟩

theorem aside_ended {α : Type} (result : Except WireError α) (s : Session (Recorded τ)) :
    Aside s (s.ended result) := by
  cases result with
  | ok _ => exact .refl s
  | error e => exact aside_fail e s

theorem aside_close (s : Session (Recorded τ)) (r : Reserves) : Aside s (s.close r).1 := by
  unfold close
  split
  · exact .refl s
  · have hmark : Aside s { s with closed := true } := ⟨rfl, id, fun _ => id, id⟩
    exact hmark.trans (aside_cancel _)

theorem aside_dropOutbound (s : Session (Recorded τ)) : Aside s s.dropOutbound := by
  unfold dropOutbound
  split
  · rename_i h
    refine ⟨rfl, id, fun n hn => ?_, fun h' => h⟩
    simp only [h, Bool.toNat_true] at hn
    simp [Queue.leave, hn]
  · exact .refl s

theorem aside_drop (s : Session (Recorded τ)) (r : Reserves) : Aside s (s.drop r).1 :=
  ((aside_close s r).trans (aside_dropOutbound _)).trans ⟨rfl, id, fun _ => id, id⟩

theorem aside_receive (s : Session (Recorded τ)) (r : Reserves) :
    Aside s (s.receive r).2.1 := by
  have hread (inbox : Inbox) (inbound : Pipe) : Aside s { s with inbox, inbound } :=
    ⟨rfl, id, fun _ => id, id⟩
  unfold receive
  simp only
  split
  · exact hread ..
  · exact hread ..
  · exact (hread ..).trans (aside_fail _ _)
  · exact hread ..

variable [Transport τ]

theorem aside_releaseTransport (s : Session (Recorded τ)) : Aside s s.releaseTransport := by
  unfold releaseTransport
  split
  · exact ⟨rfl, id, fun _ => id, id⟩
  · exact .refl s

/-- How a copy task ends. -/
theorem aside_endCopy {α : Type} (result : Except WireError α) (s : Session (Recorded τ)) :
    Aside s (s.ended result).releaseTransport :=
  (aside_ended result s).trans (aside_releaseTransport _)

omit [Transport τ] in
theorem aside_shutDown (s : Session (Recorded τ)) (r : Reserves) :
    Aside s (s.shutDown r).2.1 := by
  unfold shutDown
  split
  · simp only
    split
    · exact (aside_close s r).trans (aside_drop _ _)
    · exact aside_close s r
  · exact .refl s

theorem log_copy (cancelled : Bool) (c : Copy) (k : Recorded τ) (p : Pipe) :
    (c.poll cancelled k p).2.1.log = k.log := by
  have hread {room : Nat} {k k' : Recorded τ} {a : Poll (Except IoError Bytes)}
      (h : Source.read room k = (a, k')) : k'.log = k.log := (Recorded.onInner_eq h).2
  have hfinish (c : Copy) (k : Recorded τ) (p : Pipe) : (c.finish k p).2.1 = k := by
    unfold Copy.finish
    split <;> rfl
  fun_induction Copy.poll cancelled c k p with
  | case1 c k p hc => rw [hfinish]
  | case2 => rfl
  | case3 c k p hc hcan k' hr => exact hread hr
  | case4 c k p hc hcan e k' hr => exact hread hr
  | case5 c k p hc hcan k' hr => rw [hfinish, hread hr]
  | case6 c k p hc hcan b bs k' hr ih => rw [ih, hread hr]
  | case7 => rfl
  | case8 => rfl
  | case9 => rfl
  | case10 c k p n bs hc hcan p' hw ih => exact ih
  | case11 => rfl
  | case12 => rfl
  | case13 => rfl
  | case14 c k p n hc hcan p' hf ih => exact ih

theorem aside_pollPump (s : Session (Recorded τ)) : Aside s s.pollPump := by
  have hread (transport : Recorded τ) (inbound : Pipe) (pump : CopyTask)
      (h : transport.log = s.transport.log) : Aside s { s with transport, inbound, pump } :=
    ⟨by simp [Session.outflow, h], id, fun _ => id, id⟩
  unfold pollPump
  split
  · exact .refl s
  · rename_i c due hpump
    have hlog := log_copy s.cancelled c s.transport s.inbound
    split <;> rename_i hp <;> rw [hp] at hlog
    · exact hread _ _ _ hlog
    · exact (hread _ _ _ hlog).trans (aside_endCopy _ _)

omit [Transport τ] in
theorem aside_elsewhere (s : Session (Recorded τ)) (inner : τ) :
    Aside s { s with transport := { s.transport with inner } } :=
  ⟨rfl, id, fun _ => id, id⟩

omit [Transport τ] in
theorem outflow_endWriter {α : Type} (result : Except WireError α) (s : Session (Recorded τ)) :
    (s.endWriter result).outflow =
      { s.outflow with
        outbound := s.outbound.close, writer := .finished, waiting := [], receiving := false } := by
  cases result with
  | ok _ => rfl
  | error e =>
    rw [endWriter_error, fail_eq]
    simp [Session.outflow, Queue.close]

omit [Transport τ] in
theorem senders_endWriter {α : Type} (result : Except WireError α) (s : Session (Recorded τ)) :
    (s.endWriter result).queue.senders = s.queue.senders ∧
      (s.endWriter result).hasOutbound = s.hasOutbound := by
  cases result with
  | ok _ => exact ⟨rfl, rfl⟩
  | error e =>
    rw [endWriter_error, fail_eq]
    exact ⟨rfl, rfl⟩

/-- All that polling the drain of `s` can do. -/
inductive DrainPolled (s : Session (Recorded τ)) : Session (Recorded τ) → Prop where
  | rests (ended : s.drain.copy = none) : DrainPolled s s
  | waits (c c' : Copy) (due : Bool) (outbound : Pipe) (transport : Recorded τ)
      (running : s.drain.copy = some c)
      (copied : c.Copied s.outbound s.transport (.waiting c', outbound, transport)) :
      DrainPolled s { s with transport, outbound, drain := .running c' due }
  | ends (c : Copy) (result : Except WireError Nat) (outbound : Pipe) (transport : Recorded τ)
      (running : s.drain.copy = some c)
      (copied : c.Copied s.outbound s.transport (.done result, outbound, transport))
      (cause : result = .error .cancelled → s.cancelled = true) :
      DrainPolled s
        (({ s with transport, outbound := outbound.close, drain := .finished }.ended
          result).releaseTransport)

theorem polled_pollDrain (s : Session (Recorded τ))
    (h : ∀ c, s.drain.copy = some c → c.phase = .closing →
      s.outbound.held = [] ∧ s.outbound.closed = true) : DrainPolled s s.pollDrain := by
  unfold pollDrain
  split
  · rename_i hd
    exact .rests (by rw [hd]; rfl)
  · rename_i c due hd
    have hrunning : s.drain.copy = some c := by rw [hd]; rfl
    have hcopied := Copy.copied_poll s.cancelled s.transport (h c hrunning)
    split <;> rename_i hp <;> rw [hp] at hcopied
    · exact .waits c _ _ _ _ hrunning hcopied
    · exact .ends c _ _ _ hrunning hcopied fun hr => Copy.cancelled_of_poll (by rw [hp, hr])

end Session

end PacketWire
